import Bittorrent.Client.Swarm

/-! Downloading one piece into a stream of the caller. A worker of its own is
made for the one piece, so the piece is the one asked for also when the peer
announces another. What a failed transfer wrote before it failed stays in the
stream (`clientDownloadPiece_writes`). -/

namespace Bittorrent.Client

open Lib Lib.Exec Misc Net Proto Torrent

/-- A worker that writes into a stream of its owner. -/
def PieceWorker.external (metainfo : Metainfo) (peerIp : String) (peerPort : Nat) (socket : Socket)
    (ostream : Bytes) : PieceWorker :=
  { PieceWorker.new metainfo peerIp peerPort socket with ostream := some ostream }

/-- `client::download_piece`; the state is what is in the stream. The port is a
numeral, as `parse_ip_port` returns it. -/
def clientDownloadPiece (sha1 : Bytes → Digest) (makeAddress : Bytes → Except Exception Unit)
    (metainfo : Metainfo) (peerIp peerPort : Bytes) (pieceIdx : Nat) (socket : Socket) :
    EStateM Exception Bytes Unit := fun ostream =>
  let transfer : Except Exception (Bool × Worker PieceWorker) := do
    makeAddress peerIp
    let worker := Worker.new (.external metainfo (toText peerIp) (Decimal.value peerPort) socket ostream)
    let worker ← worker.downloadPieceAsync pieceIdx
    worker.waitPieceTransfer (pieceWorker sha1)
  match transfer with
  | .error e => .error e ostream
  | .ok (complete, worker) =>
    if complete then .ok () worker.body.output
    else
      match worker.raise with
      | .ok _ => .ok () worker.body.output
      | .error e => .error e worker.body.output

/-! ## What is written -/

/-- Since `w₀` no piece was completed, and all blocks received for the piece were written. -/
def Settled (pieceIdx : Nat) (w₀ w : PieceWorker) : Prop :=
  ∃ es, w.log = w₀.log ++ es ∧ (∀ i, .completed i ∉ es) ∧
    w.output = w₀.output ++ blocksFor pieceIdx es

/-- The same, up to some point. -/
def Behind (pieceIdx : Nat) (w₀ w : PieceWorker) : Prop :=
  ∃ es rest, w.log = w₀.log ++ (es ++ rest) ∧ (∀ i, .completed i ∉ es ++ rest) ∧
    w.output = w₀.output ++ blocksFor pieceIdx es

section
variable {pieceIdx : Nat} {w₀ w w' : PieceWorker}

theorem Settled.refl (pieceIdx : Nat) (w : PieceWorker) : Settled pieceIdx w w :=
  ⟨[], by simp, by simp, by simp⟩

theorem Settled.behind (h : Settled pieceIdx w₀ w) : Behind pieceIdx w₀ w := by
  obtain ⟨es, hlog, hc, hout⟩ := h
  exact ⟨es, [], by simpa using hlog, by simpa using hc, hout⟩

/-- An event that brings no block for the piece. -/
theorem Settled.log (h : Settled pieceIdx w₀ w) {e : Event} (hlog : w'.log = w.log ++ [e])
    (hout : w'.output = w.output) (hc : ∀ i, e ≠ .completed i) (he : e.block pieceIdx = []) :
    Settled pieceIdx w₀ w' := by
  obtain ⟨es, hes, hcs, hw⟩ := h
  refine ⟨es ++ [e], by rw [hlog, hes, List.append_assoc], fun i hi => ?_, ?_⟩
  · rcases List.mem_append.mp hi with hi | hi
    · exact hcs i hi
    · exact hc i (List.mem_singleton.mp hi).symm
  · rw [hout, hw, blocksFor_append]
    simp [blocksFor, he]

theorem keeps_behind {α : Type} {x : Session α} (h : Keeps (Settled pieceIdx w₀) x) :
    Triple (Settled pieceIdx w₀) x (fun _ => Settled pieceIdx w₀) fun _ => Behind pieceIdx w₀ :=
  h.conseq (fun _ h => h) (fun _ _ h => h) fun _ _ h => h.behind

theorem settled_kept (pieceIdx : Nat) (w₀ : PieceWorker) :
    Kept (fun site => ¬ site.isPieceBody) (Settled pieceIdx w₀) where
  read w site length hs h := by
    refine h.log rfl rfl nofun ?_
    cases site <;> first | rfl | exact absurd trivial hs
  send _ _ h := h.log rfl rfl nofun rfl
  havePieceIdx _ _ h := h

theorem settled_connect (pieceIdx : Nat) (w₀ : PieceWorker) : KeptByConnect (Settled pieceIdx w₀) where
  connect _ h := h
  haveMode _ h := h
  established _ h := h

/-- A body that was read is written next, or never. -/
theorem Settled.readBody (h : Settled pieceIdx w₀ w) (length : Nat) :
    Behind pieceIdx w₀ (w.afterRead (.pieceBody pieceIdx) length) ∧
    ∀ body, (w.socket.read length).1 = .ok body → ∀ v : PieceWorker,
      v = w.afterRead (.pieceBody pieceIdx) length →
      Settled pieceIdx w₀ (v.afterWrite (body.drop PieceMsg.minSize)) := by
  obtain ⟨es, hlog, hc, hout⟩ := h
  have hnot : ∀ i, Event.completed i ∉
      es ++ [Event.received (.pieceBody pieceIdx) length (w.socket.arriving length)] := fun i hi =>
    (List.mem_append.mp hi).elim (hc i) (by simp)
  refine ⟨⟨es, _, ?_, hnot, hout⟩, ?_⟩
  · show w.log ++ _ = _
    rw [hlog, List.append_assoc]
  · rintro body hbody v rfl
    obtain ⟨rfl, _⟩ := Socket.read_ok hbody
    refine ⟨_, ?_, hnot, ?_⟩
    · rw [PieceWorker.afterWrite_log]
      show w.log ++ _ = _
      rw [hlog, List.append_assoc]
    · rw [PieceWorker.afterWrite_output, blocksFor_append]
      show w.output ++ _ = _
      rw [hout]
      simp [blocksFor, Event.block]

/-! ## A transfer -/

theorem settled_fetchBlock (pieceIdx : Nat) (w₀ : PieceWorker) (pieceLen receivedBytes : Nat) :
    Triple (Settled pieceIdx w₀) (fetchBlock pieceIdx pieceLen receivedBytes)
      (fun _ => Settled pieceIdx w₀) (fun _ => Behind pieceIdx w₀) := by
  -- what is known when the body has been read: it can be written, or an exception ends the pass
  let Read (result : Except ErrorCode Bytes) (w : PieceWorker) : Prop :=
    Behind pieceIdx w₀ w ∧ ∀ body, result = .ok body →
      Settled pieceIdx w₀ (w.afterWrite (body.drop PieceMsg.minSize))
  have hread : ∀ length, Triple (Settled pieceIdx w₀) (Client.read (.pieceBody pieceIdx) length) Read
      fun _ => Behind pieceIdx w₀ := fun length w hw =>
    ⟨(hw.readBody length).1, fun body hbody => (hw.readBody length).2 body hbody _ rfl⟩
  refine Triple.reading fun w _ => ?_
  refine (keeps_behind ((settled_kept pieceIdx w₀).keeps_exchange (by exact not_false) _ _)).bind
    fun result => ?_
  refine (keeps_behind (keeps_headerOf _ result)).bind fun header => ?_
  refine (keeps_behind (keeps_throwIf _ _)).bind fun _ => ?_
  refine (hread header.bodyLength).bind fun result => ?_
  refine ((triple_orThrow _ result).conseq (fun _ h => h) (fun _ _ h => h) fun _ _ h => h.1).bind
    fun body => ?_
  let Held (w : PieceWorker) : Prop :=
    Behind pieceIdx w₀ w ∧ Settled pieceIdx w₀ (w.afterWrite (body.drop PieceMsg.minSize))
  have hheld : ∀ v, Read result v ∧ result = .ok body → Held v := fun v hv =>
    ⟨hv.1.1, hv.1.2 body hv.2⟩
  refine ((triple_orThrow (I := Held) _ (unpackPieceMsg body)).conseq hheld (fun _ _ h => h)
    fun _ _ h => h.1).bind fun pieceMsg => ?_
  rintro v ⟨hv, hunpack⟩
  show Settled pieceIdx w₀ (v.afterWrite pieceMsg.block)
  rw [(unpackPieceMsg_ok hunpack).2]
  exact hv.2

theorem settled_fetchBlocks (pieceIdx : Nat) (w₀ : PieceWorker) (pieceLen fuel receivedBytes : Nat) :
    Triple (Settled pieceIdx w₀) (fetchBlocks pieceIdx pieceLen fuel receivedBytes)
      (fun _ => Settled pieceIdx w₀) (fun _ => Behind pieceIdx w₀) :=
  triple_fetchBlocks (fun _ h => h.behind) (settled_fetchBlock pieceIdx w₀ pieceLen) fuel receivedBytes

theorem settled_ensureConnected (pieceIdx : Nat) (w₀ : PieceWorker) (sha1 : Bytes → Digest) :
    Keeps (Settled pieceIdx w₀) (ensureConnected sha1) :=
  (settled_kept pieceIdx w₀).keeps_ensureConnected (settled_connect pieceIdx w₀)
    (fun _ hs => hs.not_pieceBody) sha1

/-- A transfer that throws has written the blocks up to some point. -/
theorem fetchPiece_behind (pieceIdx : Nat) (w₀ : PieceWorker) (sha1 : Bytes → Digest) :
    Triple (Settled pieceIdx w₀) (fetchPiece sha1 pieceIdx) (fun _ _ => True)
      (fun _ => Behind pieceIdx w₀) := by
  refine (keeps_behind (settled_ensureConnected pieceIdx w₀ sha1)).bind fun _ => ?_
  refine Triple.reading fun w _ => ?_
  refine (keeps_behind (keeps_orThrow _ _)).bind fun len => ?_
  refine (settled_fetchBlocks pieceIdx w₀ _ _ _).bind fun received => ?_
  refine (keeps_behind (keeps_throwIf _ _)).bind fun _ => ?_
  exact Triple.modify fun _ _ => trivial

/-- One that returns has written all blocks received for the piece, which have
the length of the piece together. -/
structure Delivered (pieceIdx : Nat) (before after : PieceWorker) : Prop where
  events : ∃ es, after.log = before.log ++ es ∧ (∀ i, .completed i ∈ es ↔ i = pieceIdx) ∧
    after.output = before.output ++ blocksFor pieceIdx es ∧
    ∃ len, pieceLen before.metainfo pieceIdx = .ok len ∧
      (blocksFor pieceIdx es).length = sizeT len

theorem fetchPiece_delivers {sha1 : Bytes → Digest} (h : fetchPiece sha1 pieceIdx w = .ok () w') :
    Delivered pieceIdx w w' := by
  obtain ⟨_, w₁, hconn, h₁⟩ := bind_eq_ok.mp h
  have hsettled := (settled_ensureConnected pieceIdx w sha1).ok (Settled.refl pieceIdx w) hconn
  obtain ⟨⟨es₁, hes₁, hquiet⟩, -, -, hmeta⟩ := ((quiet_kept w).keeps_ensureConnected
    (quiet_connect w) (fun _ hs => hs.not_pieceBody) sha1).ok (Quiet.refl w) hconn
  obtain ⟨_, w₂, hget, h₂⟩ := bind_eq_ok.mp h₁
  cases hget
  obtain ⟨len, w₃, hl, h₃⟩ := bind_eq_ok.mp h₂
  obtain ⟨hlen, rfl⟩ := orThrow_ok hl
  obtain ⟨received, w₄, hblocks, h₄⟩ := bind_eq_ok.mp h₃
  obtain ⟨hn, m, hm, hf⟩ := fetchBlocks_ok _ hblocks
  obtain ⟨es₂, hes₂, -, hlength, -⟩ := hf.log
  obtain ⟨es, hes, hc, hout⟩ := (settled_fetchBlocks pieceIdx w _ _ _).ok hsettled hblocks
  obtain ⟨_, w₅, ht, h₅⟩ := bind_eq_ok.mp h₄
  obtain ⟨-, rfl⟩ := throwIf_ok ht
  cases h₅
  obtain rfl : es = es₁ ++ es₂ := by
    rw [hes₂, hes₁, List.append_assoc] at hes
    exact (List.append_cancel_left hes).symm
  refine ⟨es₁ ++ es₂ ++ [.completed pieceIdx], ?_, fun i => ?_, ?_, len, hmeta ▸ hlen, ?_⟩
  · show w₅.log ++ _ = _
    rw [hes, List.append_assoc]
  · have := hc i
    simp_all
  · show w₅.output = _
    rw [hout, blocksFor_append pieceIdx (es₁ ++ es₂)]
    simp [blocksFor, Event.block]
  · rw [blocksFor_append, blocksFor_append, blocksFor_quiet hquiet]
    simp only [List.nil_append, List.length_append, hlength]
    simp [blocksFor, Event.block]
    omega

end

/-! ## The stream of the caller -/

section
variable {sha1 : Bytes → Digest} {makeAddress : Bytes → Except Exception Unit} {metainfo : Metainfo}
  {peerIp peerPort : Bytes} {pieceIdx : Nat} {socket : Socket}

/-- A worker of its own fetches the piece it was asked for. -/
theorem downloadPiece_external (ip : String) (port : Nat) (ostream : Bytes) :
    downloadPiece sha1 pieceIdx (.external metainfo ip port socket ostream) =
      fetchPiece sha1 pieceIdx (.external metainfo ip port socket ostream) := rfl

/-- What the caller gets is how the transfer ended; an exception of the thread
is thrown on, never a null one. -/
theorem clientDownloadPiece_of_address (haddress : makeAddress peerIp = .ok ()) (ostream : Bytes) :
    clientDownloadPiece sha1 makeAddress metainfo peerIp peerPort pieceIdx socket ostream =
      match fetchPiece sha1 pieceIdx
        (.external metainfo (toText peerIp) (Decimal.value peerPort) socket ostream) with
      | .ok _ w => .ok () w.output
      | .error e w => if e.caught then .error e w.output else .error e ostream := by
  rw [← downloadPiece_external]
  simp only [clientDownloadPiece, haddress, Worker.downloadPieceAsync, Worker.new, Worker.started,
    Option.isSome_none, Bool.false_eq_true, if_false, Worker.waitPieceTransfer, Worker.join,
    Worker.runTask, pieceWorker, bind, Except.bind]
  cases hx : downloadPiece sha1 pieceIdx
      (.external metainfo (toText peerIp) (Decimal.value peerPort) socket ostream) with
  | ok u w => rfl
  | error e w => cases he : e.caught <;> simp [he, Worker.raise]

/-- The worker at the end of its transfer. -/
def workerAfter (sha1 : Bytes → Digest) (metainfo : Metainfo) (peerIp peerPort : Bytes)
    (pieceIdx : Nat) (socket : Socket) (ostream : Bytes) : PieceWorker :=
  final (fetchPiece sha1 pieceIdx)
    (.external metainfo (toText peerIp) (Decimal.value peerPort) socket ostream)

/-- When the call returns, the stream has been extended by all blocks that came
for the piece, and they have its length together. When it throws, for the
address or for the exception of the transfer, the stream has been extended by
the blocks up to some point: no more comes in and nothing is taken back. -/
theorem clientDownloadPiece_writes (sha1 : Bytes → Digest)
    (makeAddress : Bytes → Except Exception Unit) (metainfo : Metainfo) (peerIp peerPort : Bytes)
    (pieceIdx : Nat) (socket : Socket) (ostream : Bytes) :
    let call := clientDownloadPiece sha1 makeAddress metainfo peerIp peerPort pieceIdx socket ostream
    let log := (workerAfter sha1 metainfo peerIp peerPort pieceIdx socket ostream).log
    (∀ after, call = .ok () after →
      after = ostream ++ blocksFor pieceIdx log ∧ (∀ i, .completed i ∈ log ↔ i = pieceIdx) ∧
      ∃ len, pieceLen metainfo pieceIdx = .ok len ∧
        (blocksFor pieceIdx log).length = sizeT len) ∧
    ∀ e after, call = .error e after → e.caught = true →
      (makeAddress peerIp = .error e ∧ after = ostream) ∨
      (fetchPiece sha1 pieceIdx
          (.external metainfo (toText peerIp) (Decimal.value peerPort) socket ostream) =
        .error e (workerAfter sha1 metainfo peerIp peerPort pieceIdx socket ostream) ∧
      (∀ i, .completed i ∉ log) ∧
      ∃ es rest, log = es ++ rest ∧ after = ostream ++ blocksFor pieceIdx es) := by
  intro call log
  cases haddress : makeAddress peerIp with
  | error e =>
    have hcall : call = .error e ostream := by
      simp only [call, clientDownloadPiece, haddress, bind, Except.bind]
    clear_value call
    subst hcall
    refine ⟨nofun, fun e' after h _ => ?_⟩
    cases h
    exact Or.inl ⟨rfl, rfl⟩
  | ok _ =>
    have hcall : call = _ := clientDownloadPiece_of_address haddress ostream
    obtain ⟨w, hw⟩ : ∃ w, workerAfter sha1 metainfo peerIp peerPort pieceIdx socket ostream = w :=
      ⟨_, rfl⟩
    have hlog : log = w.log := congrArg PieceWorker.log hw
    rw [hw]
    unfold workerAfter final at hw
    clear_value call log
    subst hlog
    cases hx : fetchPiece sha1 pieceIdx
        (.external metainfo (toText peerIp) (Decimal.value peerPort) socket ostream) with
    | ok u w' =>
      rw [hx] at hcall hw
      obtain rfl : w' = w := hw
      subst hcall
      refine ⟨fun after h => ?_, nofun⟩
      cases h
      obtain ⟨es, hes, hc, hout, len, hlen, hlength⟩ := (fetchPiece_delivers hx).events
      obtain rfl : w'.log = es := hes
      exact ⟨hout, hc, len, hlen, hlength⟩
    | error e w' =>
      rw [hx] at hcall hw
      obtain rfl : w' = w := hw
      obtain ⟨es, rest, hes, hnot, hout⟩ := (fetchPiece_behind pieceIdx _ sha1).error
        (Settled.refl pieceIdx _) hx
      obtain hes : w'.log = es ++ rest := hes
      subst hcall
      refine ⟨fun after h => ?_, fun e' after h hcaught => Or.inr ?_⟩
      · dsimp only at h
        split_ifs at h
      · dsimp only at h
        split_ifs at h with hc
        · cases h
          exact ⟨rfl, hes ▸ hnot, es, rest, hes, hout⟩
        · cases h
          exact absurd hcaught hc

/-- Against an honest peer the stream gets the bytes the file has in the place
of the piece. They are the whole piece exactly when it is not a full one at the
end of the file. -/
theorem clientDownloadPiece_honest {pieceHashes : List Bytes} {file hash opening rest : Bytes}
    {size : Nat} {choose : Nat → Nat → Nat} {sha1 : Bytes → Digest}
    {makeAddress : Bytes → Except Exception Unit} {metainfo : Metainfo} {peerIp peerPort : Bytes}
    {pieceIdx : Nat} {socket : Socket} (ostream : Bytes)
    (hmeta : Describes metainfo pieceHashes file size) (hhash : metainfo.hash sha1 = .ok hash)
    (hi : pieceIdx < pieceHashes.length) (haddress : makeAddress peerIp = .ok ())
    (hsocket : Reachable socket) (hopening : Opening hash opening) (hchoose : Chooses choose)
    (hin : socket.incoming = opening ++
      (serveAll (pieceOf file size pieceHashes.length) (fun _ => choose) [pieceIdx] ++ rest)) :
    clientDownloadPiece sha1 makeAddress metainfo peerIp peerPort pieceIdx socket ostream =
      .ok () (ostream ++ pieceOf file size pieceHashes.length pieceIdx) ∧
    (pieceOf file size pieceHashes.length pieceIdx = (file.drop (pieceIdx * size)).take size ↔
      ¬ (pieceIdx + 1 = pieceHashes.length ∧ size ∣ file.length)) := by
  refine ⟨?_, hmeta.pieceOf_whole hi⟩
  obtain ⟨w, hconnect, hset⟩ := @connectToPeer_opening
    (.external metainfo (toText peerIp) (Decimal.value peerPort) socket ostream) _ sha1 hash opening
    hsocket hhash hopening hin
  have hlength := hmeta.pieceOf_length hi
  have hfits := Nat.le_trans (hmeta.lenOf_le pieceIdx) hmeta.fits
  have hserving : Serving metainfo true w :=
    ⟨hset.metainfo, by rw [hset.ostream]; rfl, hset.established, hset.haveMode, hset.prompt⟩
  have hserve := hset.incoming
  rw [serveAll, List.flatMap_singleton] at hserve
  obtain ⟨w', hw', -, -, -, -, hout⟩ := fetchPiece_serves sha1 hserving
    (hmeta.pieceLen pieceIdx) (hlength.trans (sizeT_natCast _).symm) (hlength ▸ hfits) hchoose hserve
  rw [clientDownloadPiece_of_address haddress, fetchPiece_connect rfl hconnect hset.established, hw']
  show EStateM.Result.ok () w'.output = _
  rw [hout, PieceWorker.output, hset.ostream]
  rfl

/-- The one byte of that torrent. -/
theorem clientDownloadPiece_honest_lone :
    clientDownloadPiece lengthDigest (fun _ => .ok ()) onePiece (ascii "127.0.0.1") (ascii "6881") 0
      (honestSocket loneHash) [] = .ok () ([] ++ pieceOf [7] 2 1 0) ∧
    (pieceOf [7] 2 1 0 = ([7].drop (0 * 2)).take 2 ↔ ¬ (0 + 1 = 1 ∧ 2 ∣ 1)) :=
  @clientDownloadPiece_honest [List.replicate 20 0xFF] [7] _ _ [] 2 (fun _ length => length) _ _ _ _ _
    0 _ [] describes_onePiece hash_onePiece (by decide) rfl (reachable_honestSocket rfl)
    (opening_honestSocket rfl) (fun _ _ h => ⟨h, Nat.le_refl _⟩) rfl

end

end Bittorrent.Client

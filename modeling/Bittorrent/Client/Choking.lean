import Bittorrent.Client.Framing

/-! When a worker sends requests. It stores no choke state: a request goes out
because setting up the connection came to its end, for which the peer had to
answer "interested" with Unchoke or Have, and because no header since then was
one that ends the call (`request_admitted`). A Choke ends the call that reads it
with an exception, and is forgotten when the worker is used again. -/

namespace Bittorrent.Client

open Lib.Exec Misc Net Proto Torrent

/-- The id in the header an event brought. -/
def Event.msgId : Event → Option MsgId
  | .received site _ got =>
    if site.expects.isSome then (unpackMsgHeader got).toOption.map MsgHeader.id else none
  | _ => none

def Event.isHandshake : Event → Prop
  | .received .handshake _ _ => True
  | _ => False

/-- Since the handshake on the connection in use the peer has answered
"interested" with Unchoke or Have. -/
def Admitted (log : List Event) : Prop :=
  ∃ before asked got after, log = before ++ .received .interested asked got :: after ∧
    (∃ header, unpackMsgHeader got = .ok header ∧ (header.id = .unchoke ∨ header.id = .have)) ∧
    ∀ e ∈ after, ¬ e.isHandshake

def NoChoke (es : List Event) : Prop := ∀ e ∈ es, e.msgId ≠ some .choke

def IsRequest (msg : Bytes) : Prop :=
  ∃ pieceIdx begin length, msg = packRequestMsg pieceIdx begin length

/-- Every request among the events that follow `log₀` was sent to a peer that had
admitted the worker, and with no Choke read since `log₀`. -/
def Warranted (log₀ es : List Event) : Prop :=
  ∀ before msg after, es = before ++ .sent msg :: after → IsRequest msg →
    Admitted (log₀ ++ before) ∧ NoChoke before

theorem msgId_received {site : Site} {asked : Nat} {got : Bytes} {id : MsgId}
    (h : (Event.received site asked got).msgId = some id) :
    ∃ header, unpackMsgHeader got = .ok header ∧ header.id = id := by
  simp only [Event.msgId] at h
  split at h
  · cases hu : unpackMsgHeader got with
    | error e =>
      rw [hu] at h
      cases h
    | ok header =>
      rw [hu] at h
      exact ⟨header, rfl, Option.some.inj h⟩
  · cases h

theorem Admitted.snoc {log : List Event} {e : Event} (h : Admitted log) (he : ¬ e.isHandshake) :
    Admitted (log ++ [e]) := by
  obtain ⟨before, asked, got, after, rfl, hgot, hafter⟩ := h
  refine ⟨before, asked, got, after ++ [e], by simp, hgot, fun e' he' => ?_⟩
  rcases List.mem_append.mp he' with he' | he'
  · exact hafter e' he'
  · rw [List.mem_singleton.mp he']
    exact he

theorem NoChoke.snoc {es : List Event} {e : Event} (h : NoChoke es) (he : e.msgId ≠ some .choke) :
    NoChoke (es ++ [e]) := by
  intro e' he'
  rcases List.mem_append.mp he' with he' | he'
  · exact h e' he'
  · rw [List.mem_singleton.mp he']
    exact he

theorem Warranted.nil (log₀ : List Event) : Warranted log₀ [] := by
  intro before msg after h
  simp at h

theorem Warranted.snoc {log₀ es : List Event} {e : Event} (h : Warranted log₀ es)
    (he : ∀ msg, e = .sent msg → IsRequest msg → Admitted (log₀ ++ es) ∧ NoChoke es) :
    Warranted log₀ (es ++ [e]) := by
  intro before msg after hsplit hreq
  rcases List.eq_nil_or_concat after with rfl | ⟨after, e', rfl⟩
  · obtain ⟨rfl, hlast⟩ := List.append_inj' hsplit rfl
    exact he msg (List.singleton_inj.mp hlast) hreq
  · rw [List.concat_eq_append, ← List.cons_append, ← List.append_assoc] at hsplit
    exact h before msg after (List.append_inj' hsplit rfl).1 hreq

/-! ## What the other messages are -/

theorem IsRequest.head {msg : Bytes} (h : IsRequest msg) : msg.head? = some 0 := by
  obtain ⟨pieceIdx, begin, length, rfl⟩ := h
  show (packU32 13).head? = some 0
  rfl

/-- A handshake starts with the length of its text. -/
theorem not_isRequest_handshake {infoHash peerId packed : Bytes}
    (h : packHandshake { infoHash := infoHash, peerId := peerId } = .ok packed) :
    ¬ IsRequest packed := by
  intro hreq
  have hhead := hreq.head
  obtain ⟨hash, _, h₁⟩ := except_bind_eq_ok.mp h
  cases h₁
  cases hhead

theorem not_isRequest_interested : ¬ IsRequest packInterestedMsg := by
  rintro ⟨pieceIdx, begin, length, h⟩
  cases congrArg List.length h

/-! ## Within a call -/

/-- A call that started with `log₀` and reads on. -/
def Orderly (log₀ : List Event) (w : PieceWorker) : Prop :=
  ∃ es, w.log = log₀ ++ es ∧ Warranted log₀ es ∧ NoChoke es

/-- A call that may have read a Choke. -/
def Ended (log₀ : List Event) (w : PieceWorker) : Prop :=
  ∃ es, w.log = log₀ ++ es ∧ Warranted log₀ es

/-- What is known after a read: the call is orderly unless it brought a Choke. -/
def Heard (log₀ : List Event) (result : Except ErrorCode Bytes) (w : PieceWorker) : Prop :=
  Ended log₀ w ∧ ((∀ got header, result = .ok got → unpackMsgHeader got = .ok header →
    header.id ≠ .choke) → Orderly log₀ w)

/-- What is known of a header when its read has returned it. -/
def Spoken (log₀ : List Event) (header : MsgHeader) (w : PieceWorker) : Prop :=
  Ended log₀ w ∧ (header.id ≠ .choke → Orderly log₀ w)

section
variable {log₀ : List Event}

theorem Orderly.ended {w : PieceWorker} (h : Orderly log₀ w) : Ended log₀ w := by
  obtain ⟨es, hlog, hes, _⟩ := h
  exact ⟨es, hlog, hes⟩

theorem Orderly.log {w : PieceWorker} {e : Event} (h : Orderly log₀ w)
    (hsent : ∀ msg, e = .sent msg → IsRequest msg → Admitted w.log) :
    ∃ es, w.log ++ [e] = log₀ ++ es ∧ Warranted log₀ es ∧ (e.msgId ≠ some .choke → NoChoke es) := by
  obtain ⟨es, hlog, hes, hchoke⟩ := h
  refine ⟨es ++ [e], by rw [hlog, List.append_assoc], hes.snoc fun msg he hreq => ?_, hchoke.snoc⟩
  exact ⟨hlog ▸ hsent msg he hreq, hchoke⟩

theorem Orderly.send {w : PieceWorker} {request : Bytes} (h : Orderly log₀ w)
    (ha : IsRequest request → Admitted w.log) : Orderly log₀ (w.afterSend request) := by
  obtain ⟨es, hlog, hes, hchoke⟩ := h.log (e := .sent request) fun msg he hreq => by
    cases he
    exact ha hreq
  exact ⟨es, hlog, hes, hchoke nofun⟩

theorem Orderly.body {w : PieceWorker} {site : Site} (h : Orderly log₀ w) (hs : site.expects = none)
    (n : Nat) : Orderly log₀ (w.afterRead site n) := by
  obtain ⟨es, hlog, hes, hchoke⟩ := h.log (e := .received site n (w.socket.arriving n)) nofun
  refine ⟨es, hlog, hes, hchoke ?_⟩
  simp [Event.msgId, hs]

theorem Orderly.heard {w : PieceWorker} (h : Orderly log₀ w) (site : Site) :
    Heard log₀ (w.socket.read MsgHeader.sizeInBytes).1
      (w.afterRead site MsgHeader.sizeInBytes) := by
  obtain ⟨es, hlog, hes, hchoke⟩ := h.log
    (e := .received site MsgHeader.sizeInBytes (w.socket.arriving MsgHeader.sizeInBytes)) nofun
  refine ⟨⟨es, hlog, hes⟩, fun hid => ⟨es, hlog, hes, hchoke fun hc => ?_⟩⟩
  obtain ⟨header, hu, hchoked⟩ := msgId_received hc
  exact hid _ header (read_of_header hu) hu hchoked

theorem Heard.error {w : PieceWorker} (h : Orderly log₀ w) (e : ErrorCode) :
    Heard log₀ (.error e) w := ⟨h.ended, fun _ => h⟩

/-! ## The functions of a session -/

theorem read_heard (site : Site) : Triple (Orderly log₀) (read site MsgHeader.sizeInBytes)
    (Heard log₀) (fun _ => Ended log₀) := fun _ hw => hw.heard site

theorem orderly_read {site : Site} (hs : site.expects = none) (n : Nat) :
    Keeps (Orderly log₀) (read site n) := fun _ hw => hw.body hs n

theorem exchange_heard (site : Site) (request : Bytes) :
    Triple (fun w => Orderly log₀ w ∧ (IsRequest request → Admitted w.log))
      (exchange site request MsgHeader.sizeInBytes) (Heard log₀) (fun _ => Ended log₀) :=
  triple_exchange (fun _ hw => ⟨hw.1.send hw.2, fun hreq => (hw.2 hreq).snoc id⟩)
    (fun _ hw => hw.1.heard site) fun _ e hw => .error hw.1 e

theorem headerOf_heard (peer : String) (result : Except ErrorCode Bytes) :
    Triple (Heard log₀ result) (headerOf peer result) (Spoken log₀) (fun _ => Ended log₀) := by
  refine .intro (fun w header w' hw h => ?_) fun w e w' hw h => ?_
  · obtain ⟨msg, rfl, hu, rfl⟩ := headerOf_ok h
    refine ⟨hw.1, fun hid => hw.2 fun got header' hr hu' => ?_⟩
    cases hr
    rw [hu] at hu'
    cases hu'
    exact hid
  · exact (keeps_headerOf peer result).error hw.1 h

/-- What reads on to its end, or to an exception. -/
theorem Keeps.ends {α : Type} {x : Session α} (h : Keeps (Orderly log₀) x) :
    Triple (Orderly log₀) x (fun _ => Orderly log₀) (fun _ => Ended log₀) :=
  h.conseq (fun _ h => h) (fun _ _ h => h) fun _ _ h => h.ended

/-- After a header that is not a Choke. -/
theorem Keeps.after {α : Type} {x : Session α} (h : Keeps (Orderly log₀) x) {header : MsgHeader}
    {id : MsgId} (hid : header.id = id) (hne : id ≠ .choke) :
    Triple (Spoken log₀ header) x (fun _ => Orderly log₀) (fun _ => Ended log₀) :=
  h.ends.conseq (fun _ hw => hw.2 (hid ▸ hne)) (fun _ _ h => h) fun _ _ h => h

theorem throwIf_spoken {header : MsgHeader} {id : MsgId} (hne : id ≠ .choke) (e : Exception) :
    Triple (Spoken log₀ header) (throwIf (header.id ≠ id) e) (fun _ => Orderly log₀)
      (fun _ => Ended log₀) := by
  refine .ite (fun _ => .throw _ fun _ hw => hw.1) fun hid => .pure _ fun _ hw => hw.2 ?_
  rw [Decidable.not_not.mp hid]
  exact hne

theorem orderly_haveOf {site : Site} (hs : site.expects = none) (n : Nat) :
    Keeps (Orderly log₀) (haveOf site n) :=
  (orderly_read hs n).bind fun _ => (keeps_orThrow _ _).bind fun _ => keeps_orThrow _ _

theorem orderly_waitHave : Triple (Orderly log₀) waitHave (fun _ => Orderly log₀)
    (fun _ => Ended log₀) := by
  refine (read_heard _).bind fun result => .ite (fun hr => ?_) fun _ => ?_
  · exact .pure _ fun w hw => hw.2 (by rw [hr]; nofun)
  refine (headerOf_heard _ _).bind fun response => .ite (fun hid => ?_) fun _ => ?_
  · refine ((orderly_haveOf rfl _).after hid (by decide)).bind fun msg => ?_
    exact .bind (R := fun _ => Orderly log₀) (.modify fun _ hw => hw) fun _ => .pure _ fun _ h => h
  · exact (throwIf_spoken (by decide) _).bind fun _ => .pure _ fun _ h => h

theorem orderly_fetchBlock (pieceIdx pieceLen receivedBytes : Nat) :
    Triple (fun w => Orderly log₀ w ∧ Admitted w.log) (fetchBlock pieceIdx pieceLen receivedBytes)
      (fun _ => Orderly log₀) (fun _ => Ended log₀) := by
  refine .reading fun w _ => .bind ((exchange_heard _ _).conseq (fun _ hw => ⟨hw.1, fun _ => hw.2⟩)
    (fun _ _ h => h) fun _ _ h => h) fun _ => (headerOf_heard _ _).bind fun header => ?_
  refine (throwIf_spoken (by decide) _).bind fun _ => (orderly_read rfl _).ends.bind fun _ => ?_
  refine (keeps_orThrow _ _).ends.bind fun _ => (keeps_orThrow _ _).ends.bind fun msg => ?_
  refine .bind (R := fun _ => Orderly log₀) (.modify fun w hw => ?_) fun _ => .pure _ fun _ h => h
  show Orderly log₀ (w.afterWrite msg.block)
  unfold Orderly
  rw [PieceWorker.afterWrite_log]
  exact hw

theorem orderly_doHandshake (sha1 : Bytes → Digest) : Keeps (Orderly log₀) (doHandshake sha1) := by
  refine .reading fun w _ => (keeps_throwIf _ _).bind fun _ => (keeps_infoHash sha1).bind fun hash => ?_
  refine (triple_orThrow _ _).bind fun handshakeMsg => ?_
  refine .bind (R := fun _ => Orderly log₀) ?_ fun _ => (keeps_orThrow _ _).bind fun _ => ?_
  · exact triple_exchange
      (fun _ hw => ⟨hw.1.send fun hreq => absurd hreq (not_isRequest_handshake hw.2), hw.2⟩)
      (fun _ hw => hw.1.body rfl _) fun _ _ hw => hw.1
  exact (keeps_orThrow _ _).bind fun _ => (keeps_infoHash sha1).bind fun _ => keeps_throwIf _ _

theorem orderly_doBitfieldOrUnchoke : Triple (Orderly log₀) doBitfieldOrUnchoke
    (fun _ => Orderly log₀) (fun _ => Ended log₀) := by
  refine (read_heard _).bind fun _ => (headerOf_heard _ _).bind fun answer => ?_
  refine .ite (fun hid => ?_) fun _ => .ite (fun hid => ?_) fun _ => .throw _ fun _ hw => hw.1
  · refine ((orderly_read rfl _).after hid (by decide)).bind fun _ => ?_
    exact .bind (keeps_orThrow _ _).ends fun _ => .pure _ fun _ h => h
  · exact Keeps.after (.pure _ fun _ h => h) hid (by decide)

theorem orderly_doInterested : Triple (Orderly log₀) doInterested (fun _ => Orderly log₀)
    (fun _ => Ended log₀) := by
  refine .bind ((exchange_heard _ _).conseq
    (fun _ hw => ⟨hw, fun hreq => absurd hreq not_isRequest_interested⟩) (fun _ _ h => h)
    fun _ _ h => h) fun _ => (headerOf_heard _ _).bind fun response => .ite (fun hid => ?_) fun _ => ?_
  · exact ((orderly_haveOf rfl _).after hid (by decide)).bind fun msg => .modify fun _ hw => hw
  · exact throwIf_spoken (by decide) _

theorem doInterested_admits {w w' : PieceWorker} (h : doInterested w = .ok () w') :
    Admitted w'.log := by
  obtain ⟨got, header, w₁, hx, hu, hcase⟩ := doInterested_inv h
  obtain ⟨_, hgot, hw₁⟩ := read_ok (exchange_ok hx)
  have hlog : w₁.log = (w.log ++ [.sent packInterestedMsg]) ++
      [.received .interested MsgHeader.sizeInBytes got] := by
    rw [hw₁, hgot]
    rfl
  have admitted : ∀ id, header.id = id → (id = .unchoke ∨ id = .have) → Admitted w₁.log := by
    rintro _ rfl hid
    exact ⟨_, _, got, [], hlog, ⟨header, hu, hid⟩, nofun⟩
  rcases hcase with ⟨hid, msg, w₂, hhave, rfl⟩ | ⟨hid, rfl⟩
  · obtain ⟨body, hr, _⟩ := haveOf_ok hhave
    obtain ⟨_, _, hw₂⟩ := read_ok hr
    show Admitted w₂.log
    rw [hw₂]
    exact (admitted _ hid (Or.inr rfl)).snoc id
  · exact admitted _ hid (Or.inl rfl)

/-- Setting up a connection comes to its end only when the peer admits the worker. -/
theorem orderly_connectToPeer (sha1 : Bytes → Digest) : Triple (Orderly log₀) (connectToPeer sha1)
    (fun _ w => Orderly log₀ w ∧ Admitted w.log) (fun _ => Ended log₀) := by
  refine (keeps_connect fun _ h => h).ends.bind fun _ => (orderly_doHandshake sha1).ends.bind fun _ => ?_
  refine orderly_doBitfieldOrUnchoke.bind fun _ => ?_
  refine .bind (R := fun _ w => Orderly log₀ w ∧ Admitted w.log) ?_ fun _ => .modify fun _ hw => hw
  exact .intro (fun _ _ _ hw h => ⟨orderly_doInterested.ok hw h, doInterested_admits h⟩)
    fun _ _ _ hw h => orderly_doInterested.error hw h

/-! ## Calls -/

/-- An established connection is one on which the peer has admitted the worker. -/
def Entitled (w : PieceWorker) : Prop := w.isPeerConnectionEstablished = true → Admitted w.log

theorem not_isHandshake {site : Site} (h : site ≠ .handshake) (asked : Nat) (got : Bytes) :
    ¬ (Event.received site asked got).isHandshake := by
  cases site <;> simp_all [Event.isHandshake]

theorem admitted_kept : Kept (· ≠ .handshake) fun w => Admitted w.log where
  read _ _ _ hs h := h.snoc (not_isHandshake hs _ _)
  send _ _ h := h.snoc id
  havePieceIdx _ _ h := h

theorem entitled_kept : Kept (· ≠ .handshake) Entitled where
  read _ _ _ hs h he := (h he).snoc (not_isHandshake hs _ _)
  send _ _ h he := (h he).snoc id
  havePieceIdx _ _ h := h

theorem entitled_connectToPeer (sha1 : Bytes → Digest) :
    Triple (fun w => Orderly log₀ w ∧ w.isPeerConnectionEstablished = false) (connectToPeer sha1)
      (fun _ w => Orderly log₀ w ∧ Admitted w.log) (fun _ w => Ended log₀ w ∧ Entitled w) :=
  ((orderly_connectToPeer sha1).and (connectToPeer_established sha1)).conseq (fun _ h => h)
    (fun _ _ h => h.1) fun _ _ h => ⟨h.1, fun he => by rw [h.2] at he; cases he⟩

theorem entitled_ensureConnected (sha1 : Bytes → Digest) :
    Triple (fun w => Orderly log₀ w ∧ Entitled w) (ensureConnected sha1)
      (fun _ w => Orderly log₀ w ∧ Admitted w.log) (fun _ w => Ended log₀ w ∧ Entitled w) := by
  intro w hw
  have hstep : ensureConnected sha1 w =
      (if !w.isPeerConnectionEstablished then connectToPeer sha1 else pure ()) w := get_bind _ w
  rw [hstep]
  cases he : w.isPeerConnectionEstablished with
  | true => exact ⟨hw.1, hw.2 he⟩
  | false => exact entitled_connectToPeer sha1 w ⟨hw.1, he⟩

theorem entitled_fetchPiece (sha1 : Bytes → Digest) (pieceIdx : Nat) :
    Triple (fun w => Orderly log₀ w ∧ Entitled w) (fetchPiece sha1 pieceIdx)
      (fun _ w => Orderly log₀ w ∧ Entitled w) (fun _ w => Ended log₀ w ∧ Entitled w) := by
  have hend : ∀ w : PieceWorker, Orderly log₀ w ∧ Admitted w.log → Ended log₀ w ∧ Entitled w :=
    fun w hw => ⟨hw.1.ended, fun _ => hw.2⟩
  have hblock : ∀ pieceLen receivedBytes, Triple (fun w => Orderly log₀ w ∧ Admitted w.log)
      (fetchBlock pieceIdx pieceLen receivedBytes) (fun _ w => Orderly log₀ w ∧ Admitted w.log)
      fun _ w => Ended log₀ w ∧ Entitled w := by
    intro pieceLen receivedBytes
    have hadmitted : Keeps (fun w => Admitted w.log) (fetchBlock pieceIdx pieceLen receivedBytes) := by
      refine admitted_kept.keeps_fetchBlock (fun w block h => ?_) (by simp) (by simp) _ _
      rw [PieceWorker.afterWrite_log]
      exact h
    exact ((orderly_fetchBlock _ _ _).and hadmitted).conseq (fun _ hw => ⟨hw, hw.2⟩) (fun _ _ h => h)
      fun _ _ h => ⟨h.1, fun _ => h.2⟩
  refine (entitled_ensureConnected sha1).bind fun _ => .reading fun w _ => ?_
  refine ((keeps_orThrow _ _).conseq (fun _ h => h) (fun _ _ h => h) fun _ w hw => hend w hw).bind
    fun len => (triple_fetchBlocks hend (hblock _) _ _).bind fun _ => ?_
  refine ((keeps_throwIf _ _).conseq (fun _ h => h) (fun _ _ h => h) fun _ w hw => hend w hw).bind
    fun _ => .modify fun w hw => ⟨?_, fun _ => hw.2.snoc id⟩
  obtain ⟨es, hlog, hes, hchoke⟩ := hw.1.log (e := .completed pieceIdx) nofun
  exact ⟨es, hlog, hes, hchoke nofun⟩

theorem entitled_downloadPiece (sha1 : Bytes → Digest) (pieceIdx : Nat) :
    Triple (fun w => Orderly log₀ w ∧ Entitled w) (downloadPiece sha1 pieceIdx)
      (fun _ w => Orderly log₀ w ∧ Entitled w) (fun _ w => Ended log₀ w ∧ Entitled w) := by
  have take : Triple (fun w => Orderly log₀ w ∧ Entitled w) takeHavePieceIdx
      (fun _ w => Orderly log₀ w ∧ Entitled w) (fun _ w => Ended log₀ w ∧ Entitled w) :=
    (keeps_takeHavePieceIdx fun _ _ h => h).conseq (fun _ h => h) (fun _ _ h => h)
      fun _ _ h => ⟨h.1.ended, h.2⟩
  have wait : Triple (fun w => Orderly log₀ w ∧ Entitled w) waitHave
      (fun _ w => Orderly log₀ w ∧ Entitled w) (fun _ w => Ended log₀ w ∧ Entitled w) :=
    orderly_waitHave.and (entitled_kept.keeps_waitHave nofun nofun)
  refine .bind (R := fun _ w => Orderly log₀ w ∧ Entitled w) (.modify fun _ h => h) fun _ =>
    .reading fun w _ => .ite (fun _ => ?_) fun _ => .ite (fun _ => ?_) fun _ => ?_
  · exact take.bind fun _ => entitled_fetchPiece sha1 _
  · refine wait.bind fun _ => .ite (fun _ => ?_) fun _ => .pure _ fun _ h => h
    exact take.bind fun _ => entitled_fetchPiece sha1 _
  · exact entitled_fetchPiece sha1 _

end

/-! ## Runs -/

def Task.run (sha1 : Bytes → Digest) : Task → Session Unit
  | .downloadPiece index => Client.downloadPiece sha1 index
  | .checkConnection => connectToPeer sha1

/-- The owner of a worker checks its connection only before there is one. -/
def Task.Allowed (w : PieceWorker) (task : Task) : Prop :=
  task = .checkConnection → w.isPeerConnectionEstablished = false

/-- A worker after any number of calls, and whether one of them threw. -/
inductive Ran (sha1 : Bytes → Digest) : Bool → PieceWorker → Prop where
  | new {w : PieceWorker} : w.log = [] → w.isPeerConnectionEstablished = false → Ran sha1 false w
  | returned {thrown : Bool} {w w' : PieceWorker} {task : Task} : Ran sha1 thrown w →
      task.Allowed w → task.run sha1 w = .ok () w' → Ran sha1 thrown w'
  | threw {thrown : Bool} {w w' : PieceWorker} {task : Task} {e : Exception} : Ran sha1 thrown w →
      task.Allowed w → task.run sha1 w = .error e w' → Ran sha1 true w'

theorem entitled_run {log₀ : List Event} (sha1 : Bytes → Digest) (task : Task) :
    Triple (fun w => Orderly log₀ w ∧ Entitled w ∧ task.Allowed w) (task.run sha1)
      (fun _ w => Orderly log₀ w ∧ Entitled w) (fun _ w => Ended log₀ w ∧ Entitled w) := by
  cases task with
  | downloadPiece index =>
    exact (entitled_downloadPiece sha1 index).conseq (fun _ h => ⟨h.1, h.2.1⟩) (fun _ _ h => h)
      fun _ _ h => h
  | checkConnection =>
    exact (entitled_connectToPeer sha1).conseq (fun _ h => ⟨h.1, h.2.2 rfl⟩)
      (fun _ _ h => ⟨h.1, fun _ => h.2⟩) fun _ _ h => h

theorem Orderly.start (w : PieceWorker) : Orderly w.log w := ⟨[], by simp, .nil _, nofun⟩

theorem Ran.entitled {sha1 : Bytes → Digest} {thrown : Bool} {w : PieceWorker}
    (h : Ran sha1 thrown w) : Entitled w ∧ (thrown = false → NoChoke w.log) := by
  induction h with
  | new hlog hest =>
    refine ⟨fun he => ?_, fun _ => ?_⟩
    · rw [hest] at he
      cases he
    · rw [hlog]
      nofun
  | @returned thrown w w' task _ hallowed hx ih =>
    obtain ⟨⟨es, hlog, _, hchoke⟩, hent⟩ := (entitled_run sha1 task).ok ⟨.start w, ih.1, hallowed⟩ hx
    refine ⟨hent, fun hthrown e he => ?_⟩
    rw [hlog] at he
    rcases List.mem_append.mp he with he | he
    · exact ih.2 hthrown e he
    · exact hchoke e he
  | @threw thrown w w' task e _ hallowed hx ih =>
    exact ⟨((entitled_run sha1 task).error ⟨.start w, ih.1, hallowed⟩ hx).2, nofun⟩

/-- Whenever a call sends a request, the peer has answered "interested" with
Unchoke or Have on this connection; the call has read no Choke before, and no
earlier one has unless a call threw. -/
theorem request_admitted {sha1 : Bytes → Digest} {thrown : Bool} {w : PieceWorker}
    (hw : Ran sha1 thrown w) {task : Task} (hallowed : task.Allowed w) {before after : List Event}
    {msg : Bytes} (hlog : (final (task.run sha1) w).log = w.log ++ before ++ .sent msg :: after)
    (hreq : IsRequest msg) :
    Admitted (w.log ++ before) ∧ NoChoke before ∧ (thrown = false → NoChoke w.log) := by
  have hrun : Ended w.log (final (task.run sha1) w) :=
    ((entitled_run sha1 task).conseq (fun _ h => h) (fun _ _ h => h.1.ended)
      fun _ _ h => h.1).final ⟨.start w, hw.entitled.1, hallowed⟩
  obtain ⟨es, hes, hwarranted⟩ := hrun
  rw [hlog, List.append_assoc] at hes
  obtain ⟨hadmitted, hchoke⟩ := hwarranted before msg after (List.append_cancel_left hes).symm hreq
  exact ⟨hadmitted, hchoke, hw.entitled.2⟩

theorem bitfield_fits : ([128] : Bytes).length + 1 < 2 ^ 32 := by decide

theorem have_fits : ([0, 0, 0, 0] : Bytes).length + 1 < 2 ^ 32 := by decide

/-- A peer that announces a piece without ever sending Unchoke. -/
def announcing : PieceWorker :=
  .new onePiece "127.0.0.1" 6881 (sending [.message .bitfield [128] bitfield_fits,
    .message .have [0, 0, 0, 0] have_fits, pieceMessage])

def announcingLog : List Event := (final ((Task.downloadPiece 0).run lengthDigest) announcing).log

private theorem announcingLog_request : (final ((Task.downloadPiece 0).run lengthDigest) announcing).log =
    announcing.log ++ announcingLog.take 7 ++ .sent (packRequestMsg 0 0 1) :: announcingLog.drop 8 := by
  decide +kernel

private theorem ran_announcing : Ran lengthDigest false announcing := .new rfl rfl

private theorem allowed_announcing : (Task.downloadPiece 0).Allowed announcing := nofun

theorem request_admitted_announcing : ∃ before after,
    announcingLog = announcing.log ++ before ++ .sent (packRequestMsg 0 0 1) :: after ∧
    Admitted (announcing.log ++ before) ∧ NoChoke before ∧ (false = false → NoChoke announcing.log) :=
  ⟨announcingLog.take 7, announcingLog.drop 8, announcingLog_request,
    request_admitted ran_announcing allowed_announcing announcingLog_request ⟨0, 0, 1, rfl⟩⟩

private theorem announcingLog_not_unchoke :
    (announcingLog.take 7).all (fun e => decide (e.msgId ≠ some .unchoke)) = true := by decide +kernel

theorem Ran.call {sha1 : Bytes → Digest} {thrown : Bool} {w : PieceWorker} {task : Task}
    (h : Ran sha1 thrown w) (hallowed : task.Allowed w) :
    ∃ thrown', Ran sha1 thrown' (final (task.run sha1) w) := by
  unfold final
  cases hx : task.run sha1 w with
  | ok u w' => exact ⟨thrown, .returned h hallowed hx⟩
  | error e w' => exact ⟨true, .threw h hallowed hx⟩

theorem choke_fits : ([] : Bytes).length + 1 < 2 ^ 32 := by decide

/-- A peer that chokes the worker between two pieces. -/
def choking : PieceWorker :=
  .new onePiece "127.0.0.1" 6881 (sending (answers ++ [pieceMessage, .message .choke [] choke_fits,
    .message .have [0, 0, 0, 0] have_fits, pieceMessage]))

def afterTransfers : Nat → PieceWorker
  | 0 => choking
  | k + 1 => final ((Task.downloadPiece 0).run lengthDigest) (afterTransfers k)

private theorem ran_choking (k : Nat) : ∃ thrown, Ran lengthDigest thrown (afterTransfers k) := by
  induction k with
  | zero => exact ⟨false, .new rfl rfl⟩
  | succ k ih =>
    obtain ⟨thrown, h⟩ := ih
    exact h.call nofun

/-- What the third transfer has done when it sends its request. -/
def chokingBefore : List Event := ((afterTransfers 3).log.drop 11).take 2

private theorem choking_request : (final ((Task.downloadPiece 0).run lengthDigest) (afterTransfers 2)).log =
    (afterTransfers 2).log ++ chokingBefore ++
      .sent (packRequestMsg 0 0 1) :: (afterTransfers 3).log.drop 14 := by decide +kernel

/-- What happened between the Unchoke and that request. -/
def chokingLater : List Event := ((afterTransfers 3).log.take 13).drop 3

private theorem choking_unchoke : (afterTransfers 2).log ++ chokingBefore =
    (afterTransfers 3).log.take 2 ++
      .received .bitfield MsgHeader.sizeInBytes packUnchokeMsg :: chokingLater := by decide +kernel

private theorem unchoke_msgId :
    (Event.received .bitfield MsgHeader.sizeInBytes packUnchokeMsg).msgId = some .unchoke := by
  decide +kernel

private theorem choking_later :
    chokingLater.all (fun e => decide (e.msgId ≠ some .unchoke)) = true ∧
      chokingLater.any (fun e => decide (e.msgId = some .choke)) = true := by decide +kernel

/-- A request may go out with no Unchoke before it, and with a Choke after the
latest Unchoke. -/
theorem requests_while_choked :
    (¬ ∀ (sha1 : Bytes → Digest) (thrown : Bool) (w : PieceWorker) (task : Task)
      (before after : List Event) (msg : Bytes), Ran sha1 thrown w → task.Allowed w →
      (final (task.run sha1) w).log = w.log ++ before ++ .sent msg :: after → IsRequest msg →
      ∃ e ∈ w.log ++ before, e.msgId = some .unchoke) ∧
    ¬ ∀ (sha1 : Bytes → Digest) (thrown : Bool) (w : PieceWorker) (task : Task)
      (before after earlier later : List Event) (e : Event) (msg : Bytes), Ran sha1 thrown w →
      task.Allowed w → (final (task.run sha1) w).log = w.log ++ before ++ .sent msg :: after →
      IsRequest msg → w.log ++ before = earlier ++ e :: later → e.msgId = some .unchoke →
      (∀ e' ∈ later, e'.msgId ≠ some .unchoke) → NoChoke later := by
  constructor
  · intro hall
    obtain ⟨e, he, hid⟩ := hall _ _ _ _ _ _ _ ran_announcing allowed_announcing announcingLog_request
      ⟨0, 0, 1, rfl⟩
    rw [show announcing.log = [] from rfl, List.nil_append] at he
    exact of_decide_eq_true (List.all_eq_true.mp announcingLog_not_unchoke e he) hid
  · intro hall
    obtain ⟨thrown, hran⟩ := ran_choking 2
    obtain ⟨hunchoke, hchoke⟩ := choking_later
    obtain ⟨e, he, hid⟩ := List.any_eq_true.mp hchoke
    have hallowed : (Task.downloadPiece 0).Allowed (afterTransfers 2) := nofun
    have hfresh : ∀ e' ∈ chokingLater, e'.msgId ≠ some .unchoke :=
      fun e' he' => of_decide_eq_true (List.all_eq_true.mp hunchoke e' he')
    exact hall _ _ _ _ _ _ _ _ _ _ hran hallowed choking_request ⟨0, 0, 1, rfl⟩ choking_unchoke
      unchoke_msgId hfresh e he (of_decide_eq_true hid)

end Bittorrent.Client

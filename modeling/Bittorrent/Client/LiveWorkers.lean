import Bittorrent.Client.Integrity

/-! Peers that go on sending. The stream of a session is all its peer ever sends,
which is enough for any one transfer but not for a download that never ends: here
more bytes come in front of every transfer. The scheduler is the same, and with
nothing more to come so are its runs (`reachesLive_silent`). -/

namespace Bittorrent.Client

open Lib Lib.Exec Misc Net Proto Torrent

/-! ## The same transfers on other states -/

/-- The result with its state read in another way. -/
def mapState {ε α σ σ' : Type} (f : σ → σ') : EStateM.Result ε σ α → EStateM.Result ε σ' α
  | .ok a s => .ok a (f s)
  | .error e s => .error e (f s)

theorem mapState_eq_ok {ε α σ σ' : Type} {f : σ → σ'} {r : EStateM.Result ε σ α} {a : α} {s' : σ'} :
    mapState f r = .ok a s' ↔ ∃ s, r = .ok a s ∧ f s = s' := by
  cases r <;> simp [mapState, and_assoc]

theorem mapState_eq_error {ε α σ σ' : Type} {f : σ → σ'} {r : EStateM.Result ε σ α} {e : ε} {s' : σ'} :
    mapState f r = .error e s' ↔ ∃ s, r = .error e s ∧ f s = s' := by
  cases r <;> simp [mapState, and_assoc]

section
variable {A B : Type}

/-- Read through `f`, a body of one kind does what one of the other kind does. -/
structure PieceBody.View (ops : PieceBody A) (ops' : PieceBody B) (f : A → B) : Prop where
  downloadPiece : ∀ i a, ops'.downloadPiece i (f a) = mapState f (ops.downloadPiece i a)
  haveMode : ∀ a, ops'.haveMode (f a) = ops.haveMode a
  lastPieceIdx : ∀ a, ops'.lastPieceIdx (f a) = ops.lastPieceIdx a
  piece : ∀ a, ops'.piece (f a) = ops.piece a

def Worker.map (f : A → B) (w : Worker A) : Worker B :=
  ⟨f w.body, w.thread, w.exception, w.isPieceTransferComplete⟩

def Download.map (f : A → B) (d : Download A) : Download B := ⟨d.workers.map (.map f), d.store⟩

variable {ops : PieceBody A} {ops' : PieceBody B} {f : A → B}

theorem PieceBody.View.awaitWorker (h : ops.View ops' f) (w : Worker A) (i : Nat) (s : Store) :
    awaitWorker ops' ((w.map f).assigned i) s =
      (Worker.map f <$> awaitWorker ops (w.assigned i)) s := by
  cases hx : ops.downloadPiece i w.body with
  | ok u b =>
    have hx' : ops'.downloadPiece i (w.map f).body = .ok () (f b) := by
      rw [Worker.map, h.downloadPiece, hx]
      rfl
    have hawait := awaitWorker_of_ok ops s hx
    rw [awaitWorker_of_ok ops' s hx', h.lastPieceIdx, h.piece]
    by_cases hmem : ops.lastPieceIdx b ∈ s.piecesToDownload
    · rw [if_pos hmem] at hawait ⊢
      exact (map_of_ok hawait (Worker.map f)).symm
    · rw [if_neg hmem] at hawait ⊢
      exact (map_of_error hawait _).symm
  | error e b =>
    have hx' : ops'.downloadPiece i (w.map f).body = .error e (f b) := by
      rw [Worker.map, h.downloadPiece, hx]
      rfl
    cases he : e.caught with
    | true =>
      have hawait := awaitWorker_of_error ops s hx he
      rw [awaitWorker_of_error ops' s hx' he, h.haveMode]
      by_cases hm : ops.haveMode b = true
      · rw [if_pos hm] at hawait ⊢
        exact (map_of_ok hawait (Worker.map f)).symm
      · rw [if_neg hm] at hawait ⊢
        exact (map_of_error hawait _).symm
    | false =>
      have hawait : Client.awaitWorker ops (w.assigned i) s = .error e s := by
        rw [awaitWorker_assigned, wait_of_error ops hx, he]
        rfl
      rw [map_of_error hawait, awaitWorker_assigned, wait_of_error ops' hx', he]
      rfl

theorem idle_map {workers : List (Worker A)} (hidle : ∀ w ∈ workers, w.thread = none) (f : A → B) :
    ∀ w ∈ workers.map (Worker.map f), w.thread = none := by
  intro w hw
  obtain ⟨v, hv, rfl⟩ := List.mem_map.mp hw
  exact hidle v hv

theorem PieceBody.View.awaitWorkers (h : ops.View ops' f) (workers : List (Worker A)) :
    ∀ (pieces : List Nat) (s : Store), (∀ w ∈ workers, w.thread = none) →
    awaitWorkers ops' (assign (workers.map (.map f)) pieces) s =
      (List.map (.map f) <$> awaitWorkers ops (assign workers pieces)) s := by
  induction workers with
  | nil => exact fun _ _ _ => rfl
  | cons w workers ih =>
    intro pieces s hidle
    cases pieces with
    | nil =>
      exact (awaitWorkers_idle ops' (idle_map hidle f) s).trans
        (map_of_ok (awaitWorkers_idle ops hidle s) _).symm
    | cons i pieces =>
      have hfirst := h.awaitWorker w i s
      rw [List.map_cons, assign, assign, Client.awaitWorkers, Client.awaitWorkers]
      cases hw : Client.awaitWorker ops (w.assigned i) s with
      | error e s' =>
        rw [map_of_error hw] at hfirst
        rw [bind_of_error hfirst, map_of_error (bind_of_error hw)]
      | ok w' s' =>
        have hrest := ih pieces s' fun w hw => hidle w (List.mem_cons_of_mem _ hw)
        rw [map_of_ok hw] at hfirst
        rw [bind_of_ok hfirst]
        cases hws : Client.awaitWorkers ops (assign workers pieces) s' with
        | error e s'' =>
          rw [map_of_error hws] at hrest
          rw [bind_of_error hrest, map_of_error ((bind_of_ok hw).trans (bind_of_error hws))]
        | ok workers' s'' =>
          rw [map_of_ok hws] at hrest
          rw [bind_of_ok hrest, map_of_ok ((bind_of_ok hw).trans (bind_of_ok hws))]
          rfl

theorem PieceBody.View.loopBody (h : ops.View ops' f) {d : Download A}
    (hidle : ∀ w ∈ d.workers, w.thread = none) :
    loopBody ops' (d.map f) = mapState (.map f) (loopBody ops d) := by
  have hround := h.awaitWorkers d.workers d.store.piecesToDownload
    (d.store.request d.workers.length) hidle
  have hround' := round_idle ops' (d := d.map f) (idle_map hidle f)
  rw [show (d.map f).workers.length = d.workers.length from List.length_map _] at hround'
  have hsame := hround'.trans hround
  rw [Client.loopBody, Client.loopBody, round_idle ops hidle]
  cases hr : Client.awaitWorkers ops (assign d.workers d.store.piecesToDownload)
      (d.store.request d.workers.length) with
  | ok workers s =>
    rw [map_of_ok hr] at hsame
    rw [hsame]
    rfl
  | error e s =>
    rw [map_of_error hr] at hsame
    rw [hsame]
    rfl

theorem PieceBody.View.heads (h : ops.View ops' f) {n k : Nat} {shuffled : Shuffled n}
    {workers : List (Worker A)} {files : Nat → Option Bytes} {out : Bytes} {d' : Download B}
    (hidle : ∀ w ∈ workers, w.thread = none) :
    Heads ops' (.start shuffled (workers.map (.map f)) files out) k d' ↔
      ∃ d, Heads ops (.start shuffled workers files out) k d ∧ d' = d.map f := by
  constructor
  · intro hd'
    induction hd' with
    | zero => exact ⟨_, .zero, rfl⟩
    | succ _ hrun hb ih =>
      obtain ⟨d, hd, rfl⟩ := ih
      rw [h.loopBody (idle_heads hidle hd)] at hb
      cases hbody : Client.loopBody ops d with
      | ok u d₁ =>
        rw [hbody] at hb
        cases hb
        exact ⟨d₁, .succ hd hrun hbody, rfl⟩
      | error e d₁ =>
        rw [hbody] at hb
        cases hb
  · intro hd
    obtain ⟨d, hd, rfl⟩ := hd
    induction hd with
    | zero => exact .zero
    | succ hd hrun hb ih =>
      refine .succ ih hrun ?_
      rw [h.loopBody (idle_heads hidle hd), hb]
      rfl

end

/-! ## Workers whose peers go on sending -/

/-- `sends n` comes before the transfer after the next `n`. -/
structure LiveWorker where
  worker : PieceWorker
  sends : Nat → Bytes

namespace LiveWorker

/-- What has come since the last transfer is there to be read. -/
def receive (w : LiveWorker) : LiveWorker where
  worker := { w.worker with
    socket := { w.worker.socket with incoming := w.worker.socket.incoming ++ w.sends 0 } }
  sends n := w.sends (n + 1)

def run (x : Session Unit) : EStateM Exception LiveWorker Unit := fun w =>
  mapState (fun worker => ⟨worker, w.sends⟩) (x w.worker)

/-- A peer that has sent all it will ever send. -/
def silent (worker : PieceWorker) : LiveWorker := ⟨worker, fun _ => []⟩

end LiveWorker

def liveWorker (sha1 : Bytes → Digest) : PieceBody LiveWorker where
  downloadPiece index w := LiveWorker.run (downloadPiece sha1 index) w.receive
  connectToPeer := LiveWorker.run (connectToPeer sha1)
  isPeerConnectionEstablished w := w.worker.isPeerConnectionEstablished
  haveMode w := w.worker.haveMode
  lastPieceIdx w := w.worker.lastPieceIdx
  piece w := w.worker.buffer

theorem view_silent (sha1 : Bytes → Digest) :
    (pieceWorker sha1).View (liveWorker sha1) LiveWorker.silent where
  downloadPiece i w := by
    have hreceive : (LiveWorker.silent w).receive = .silent w := by
      simp [LiveWorker.receive, LiveWorker.silent]
    show LiveWorker.run _ (LiveWorker.silent w).receive = _
    rw [hreceive]
    rfl
  haveMode _ := rfl
  lastPieceIdx _ := rfl
  piece _ := rfl

section
variable (sha1 : Bytes → Digest) (makeAddress : Bytes → Except Exception Unit)

/-- A peer, the connection to it, and what comes on that connection later. -/
structure LivePeer where
  peer : Bytes
  socket : Socket
  sends : Nat → Bytes

def setupLiveWorkers (metainfo : Metainfo) : List LivePeer →
    Except Exception (List (Worker LiveWorker))
  | [] => .ok []
  | p :: peers => do
    let worker ← setupWorker sha1 makeAddress metainfo p.peer p.socket
    let workers ← setupLiveWorkers metainfo peers
    .ok ((worker.map (.map fun w => ⟨w, p.sends⟩)).toList ++ workers)

/-- `download_file` comes to the head of its loop in state `d` after `k` rounds. -/
def DownloadFile.ReachesLive (metainfo : Metainfo) (peers : List LivePeer) {n : Nat}
    (shuffled : Shuffled n) (files : Nat → Option Bytes) (ostream : Bytes) (k : Nat)
    (d : Download LiveWorker) : Prop :=
  ∃ pieces workers, metainfo.pieces = .ok pieces ∧ n = pieces.length ∧
    setupLiveWorkers sha1 makeAddress metainfo peers = .ok workers ∧ workers ≠ [] ∧
    Heads (liveWorker sha1) (.start shuffled workers files ostream) k d

end

section
variable {sha1 : Bytes → Digest} {makeAddress : Bytes → Except Exception Unit} {metainfo : Metainfo}

theorem setupLiveWorkers_ok (peers : List LivePeer) : ∀ {workers : List (Worker LiveWorker)},
    setupLiveWorkers sha1 makeAddress metainfo peers = .ok workers →
    ∀ w ∈ workers, ∃ p ∈ peers, ∃ v, Connected sha1 metainfo p.socket v ∧
      w = v.map fun w => ⟨w, p.sends⟩ := by
  induction peers with
  | nil =>
    intro workers h w hw
    cases h
    exact absurd hw List.not_mem_nil
  | cons p peers ih =>
    intro workers h w hw
    obtain ⟨worker, hworker, h₁⟩ := except_bind_eq_ok.mp h
    obtain ⟨rest, hrest, h₂⟩ := except_bind_eq_ok.mp h₁
    cases h₂
    rcases List.mem_append.mp hw with hw | hw
    · obtain ⟨v, rfl, rfl⟩ := Option.map_eq_some_iff.mp (Option.mem_toList.mp hw)
      exact ⟨p, List.mem_cons_self .., v, setupWorker_ok hworker, rfl⟩
    · obtain ⟨q, hq, hc⟩ := ih hrest w hw
      exact ⟨q, List.mem_cons_of_mem _ hq, hc⟩

theorem idle_of_setupLive {peers : List LivePeer} {workers : List (Worker LiveWorker)}
    (h : setupLiveWorkers sha1 makeAddress metainfo peers = .ok workers) :
    ∀ w ∈ workers, w.thread = none := by
  intro w hw
  obtain ⟨_, _, v, ⟨hidle, _⟩, rfl⟩ := setupLiveWorkers_ok peers h w hw
  exact hidle

theorem reachesLive_iff_heads {peers : List LivePeer} {n j : Nat} {shuffled : Shuffled n}
    {files : Nat → Option Bytes} {out : Bytes} {d₀ : Download LiveWorker}
    (h : DownloadFile.ReachesLive sha1 makeAddress metainfo peers shuffled files out j d₀) :
    ∃ workers, setupLiveWorkers sha1 makeAddress metainfo peers = .ok workers ∧
      ∀ k d, DownloadFile.ReachesLive sha1 makeAddress metainfo peers shuffled files out k d ↔
        Heads (liveWorker sha1) (.start shuffled workers files out) k d := by
  obtain ⟨pieces, workers, hpieces, hn, hsetup, hne, _⟩ := h
  refine ⟨workers, hsetup, fun k d => ⟨?_, fun hd => ⟨pieces, workers, hpieces, hn, hsetup, hne, hd⟩⟩⟩
  intro hreach
  obtain ⟨_, workers', _, _, hsetup', _, hd⟩ := hreach
  obtain rfl : workers = workers' := Except.ok.inj (hsetup.symm.trans hsetup')
  exact hd

/-- What a connection that is set up has, and more bytes and a transfer leave, all
workers have. -/
theorem keeps_liveHeads {I : LiveWorker → Prop} {peers : List LivePeer}
    {workers : List (Worker LiveWorker)} {n k : Nat} {shuffled : Shuffled n}
    {files : Nat → Option Bytes} {out : Bytes} {d : Download LiveWorker}
    (hsetup : setupLiveWorkers sha1 makeAddress metainfo peers = .ok workers)
    (hconnect : ∀ p ∈ peers, ∀ peerIp peerPort w,
      connectToPeer sha1 (.new metainfo peerIp peerPort p.socket) = .ok () w → I ⟨w, p.sends⟩)
    (hreceive : ∀ w, I w → I w.receive)
    (hkeeps : ∀ pieceIdx sends, Keeps (fun w => I ⟨w, sends⟩) (downloadPiece sha1 pieceIdx))
    (h : Heads (liveWorker sha1) (.start shuffled workers files out) k d) :
    ∀ w ∈ d.workers, I w.body := by
  refine fun w hw => (workers_heads (I := I) (idle_of_setupLive hsetup) (fun w hw => ?_)
    (fun t w' hi hw' => ?_) h w hw).2
  · obtain ⟨p, hp, v, ⟨_, _, _, hc⟩, rfl⟩ := setupLiveWorkers_ok peers hsetup w hw
    exact hconnect p hp _ _ _ hc
  · rcases hw'.body with hx | ⟨e, hx, _⟩
    · obtain ⟨v, hv, hbody⟩ := mapState_eq_ok.mp hx
      rw [← hbody]
      exact (hkeeps t.2 _).ok (hreceive _ hi) hv
    · obtain ⟨v, hv, hbody⟩ := mapState_eq_error.mp hx
      rw [← hbody]
      exact (hkeeps t.2 _).error (hreceive _ hi) hv

/-! ## Nothing more to come -/

def LivePeer.silent (peer : Bytes × Socket) : LivePeer := ⟨peer.1, peer.2, fun _ => []⟩

theorem setupLiveWorkers_silent (peers : List (Bytes × Socket)) :
    setupLiveWorkers sha1 makeAddress metainfo (peers.map .silent) =
      (setupWorkers sha1 makeAddress metainfo peers).map (List.map (.map .silent)) := by
  induction peers with
  | nil => rfl
  | cons peer peers ih =>
    obtain ⟨peer, socket⟩ := peer
    rw [List.map_cons, setupLiveWorkers, setupWorkers, ih]
    show (setupWorker sha1 makeAddress metainfo peer socket >>= _) = Except.map _ (_ >>= _)
    cases setupWorker sha1 makeAddress metainfo peer socket with
    | error e => rfl
    | ok worker =>
      cases setupWorkers sha1 makeAddress metainfo peers with
      | error e => rfl
      | ok workers => cases worker <;> rfl

/-- When nothing more comes, these are the runs of the sessions with their streams. -/
theorem reachesLive_silent {peers : List (Bytes × Socket)} {n k : Nat} {shuffled : Shuffled n}
    {files : Nat → Option Bytes} {out : Bytes} {d' : Download LiveWorker} :
    DownloadFile.ReachesLive sha1 makeAddress metainfo (peers.map .silent) shuffled files out k d' ↔
      ∃ d, DownloadFile.Reaches sha1 makeAddress metainfo peers shuffled files out k d ∧
        d' = d.map .silent := by
  constructor
  · intro h
    obtain ⟨pieces, workers', hpieces, hn, hsetup, hne, hheads⟩ := h
    rw [setupLiveWorkers_silent] at hsetup
    obtain ⟨workers, hworkers, rfl⟩ := except_map_eq_ok.mp hsetup
    obtain ⟨d, hd, rfl⟩ := ((view_silent sha1).heads (idle_of_setup hworkers)).mp hheads
    exact ⟨d, ⟨pieces, workers, hpieces, hn, hworkers, mt List.map_eq_nil_iff.mpr hne, hd⟩, rfl⟩
  · intro h
    obtain ⟨d, ⟨pieces, workers, hpieces, hn, hsetup, hne, hd⟩, rfl⟩ := h
    refine ⟨pieces, _, hpieces, hn, ?_, mt List.map_eq_nil_iff.mp hne,
      ((view_silent sha1).heads (idle_of_setup hsetup)).mpr ⟨d, hd, rfl⟩⟩
    rw [setupLiveWorkers_silent, hsetup]
    rfl

end

end Bittorrent.Client

import Bittorrent.Client.Schedule

/-! What the rounds of a run that goes on leave behind: each worker in the state
its transfer ended in, and in the store what these transfers delivered. -/

namespace Bittorrent.Client

open Lib Lib.Exec Misc Net Proto Torrent

/-! ## Rounds -/

section
variable {B : Type} (ops : PieceBody B)

/-- The transfer returned in state `b`. -/
def Ends (t : Worker B × Nat) (b : B) : Prop := ops.downloadPiece t.2 t.1.body = .ok () b

/-- A worker in the state its transfer ended in; only in have mode the run
survives an exception. -/
structure Transferred (t : Worker B × Nat) (w : Worker B) : Prop where
  thread : w.thread = none
  body : Ends ops t w.body ∨
    ∃ e, ops.downloadPiece t.2 t.1.body = .error e w.body ∧ ops.haveMode w.body = true

/-- Two stores of a run, and the transfers awaited between them. -/
structure Settles (T : Worker B × Nat → Prop) (s s' : Store) : Prop where
  sublist : s'.piecesToDownload.Sublist s.piecesToDownload
  written : ∀ i, i ∈ s'.written ↔
    i ∈ s.written ∨ ∃ t b, T t ∧ Ends ops t b ∧ ops.lastPieceIdx b = i
  delivered : ∀ t b, T t → Ends ops t b →
    ops.lastPieceIdx b ∉ s'.piecesToDownload ∧ s'.files (ops.lastPieceIdx b) = some (ops.piece b)
  keeps : ∀ i, i ∉ s.piecesToDownload → s'.files i = s.files i
  ostream : s'.ostream = s.ostream

variable {ops} {T T' : Worker B × Nat → Prop} {s s' s'' : Store}

theorem Settles.none (hT : ∀ t b, T t → ¬ Ends ops t b) (s : Store) : Settles ops T s s where
  sublist := List.Sublist.refl _
  written _ := ⟨Or.inl, fun h => h.resolve_right fun ⟨t, b, ht, hb, _⟩ => hT t b ht hb⟩
  delivered t b ht hb := absurd hb (hT t b ht)
  keeps _ _ := rfl
  ostream := rfl

/-- What was delivered stays: later transfers deliver pieces still on the list. -/
theorem Settles.trans (h : Settles ops T s s') (h' : Settles ops T' s' s'') :
    Settles ops (fun t => T t ∨ T' t) s s'' where
  sublist := h'.sublist.trans h.sublist
  written i := by
    rw [h'.written, h.written, or_assoc]
    refine or_congr_right ⟨?_, ?_⟩
    · intro hw
      rcases hw with ⟨t, b, ht, hb⟩ | ⟨t, b, ht, hb⟩
      · exact ⟨t, b, Or.inl ht, hb⟩
      · exact ⟨t, b, Or.inr ht, hb⟩
    · intro hw
      obtain ⟨t, b, ht | ht, hb⟩ := hw
      · exact Or.inl ⟨t, b, ht, hb⟩
      · exact Or.inr ⟨t, b, ht, hb⟩
  delivered t b ht hb := by
    rcases ht with ht | ht
    · obtain ⟨hgone, hfile⟩ := h.delivered t b ht hb
      exact ⟨fun hmem => hgone (h'.sublist.mem hmem), (h'.keeps _ hgone).trans hfile⟩
    · exact h'.delivered t b ht hb
  keeps i hi := (h'.keeps i fun hmem => hi (h.sublist.mem hmem)).trans (h.keeps i hi)
  ostream := h'.ostream.trans h.ostream

theorem Settles.congr (h : Settles ops T s s') (hT : ∀ t, T' t ↔ T t) : Settles ops T' s s' := by
  obtain rfl : T' = T := funext fun t => propext (hT t)
  exact h

/-- A wait after which the run goes on. -/
theorem awaitWorker_ok {w w' : Worker B} {i : Nat} (hn : s.piecesToDownload.Nodup)
    (h : awaitWorker ops (w.assigned i) s = .ok w' s') :
    Transferred ops (w, i) w' ∧ Settles ops (· = (w, i)) s s' := by
  cases hx : ops.downloadPiece i w.body with
  | ok u b =>
    rw [awaitWorker_of_ok ops s hx] at h
    have hends : ∀ t b', t = (w, i) → Ends ops t b' → b' = b := by
      rintro _ b' rfl hb
      exact (EStateM.Result.ok.inj (hx.symm.trans hb)).2.symm
    split at h
    · next hmem =>
      cases h
      refine ⟨⟨rfl, Or.inl hx⟩, List.erase_sublist, fun j => ?_, fun t b' ht hb => ?_,
        fun j hj => if_neg (ne_of_mem_of_not_mem hmem hj).symm, rfl⟩
      · refine List.mem_append.trans (or_congr_right (List.mem_singleton.trans ⟨?_, ?_⟩))
        · rintro rfl
          exact ⟨(w, i), b, rfl, hx, rfl⟩
        · intro hw
          obtain ⟨t, b', ht, hb, rfl⟩ := hw
          rw [hends t b' ht hb]
      · rw [hends t b' ht hb]
        exact ⟨hn.not_mem_erase, if_pos rfl⟩
    · cases h
  | error e b =>
    cases he : e.caught with
    | false =>
      rw [awaitWorker_assigned, wait_of_error ops hx, he] at h
      cases h
    | true =>
      rw [awaitWorker_of_error ops s hx he] at h
      split at h
      · next hm =>
        cases h
        refine ⟨⟨rfl, Or.inr ⟨e, hx, hm⟩⟩, .none ?_ s⟩
        rintro _ b' rfl hb
        cases hx.symm.trans hb
      · cases h

theorem awaitWorkers_ok (workers : List (Worker B)) : ∀ (pieces : List Nat) {s s' : Store}
    {workers' : List (Worker B)}, (∀ w ∈ workers, w.thread = none) → s.piecesToDownload.Nodup →
    awaitWorkers ops (assign workers pieces) s = .ok workers' s' →
    (∀ w' ∈ workers', w' ∈ workers ∨ ∃ t ∈ workers.zip pieces, Transferred ops t w') ∧
      Settles ops (· ∈ workers.zip pieces) s s' := by
  induction workers with
  | nil =>
    intro pieces s s' workers' _ _ h
    cases h
    exact ⟨nofun, .none nofun s⟩
  | cons w workers ih =>
    intro pieces s s' workers' hidle hn h
    cases pieces with
    | nil =>
      have hsame : assign (w :: workers) [] = w :: workers := rfl
      rw [hsame, awaitWorkers_idle ops hidle] at h
      cases h
      exact ⟨fun w' hw' => Or.inl hw', .none nofun s⟩
    | cons i pieces =>
      obtain ⟨w₁, s₁, h₁, h₂⟩ := bind_eq_ok.mp h
      obtain ⟨workers₁, _, h₃, h₄⟩ := bind_eq_ok.mp h₂
      cases h₄
      obtain ⟨hw, hs⟩ := awaitWorker_ok hn h₁
      obtain ⟨hws, hss⟩ := ih pieces (fun w hw => hidle w (by simp [hw])) (hs.sublist.nodup hn) h₃
      refine ⟨fun w' hw' => ?_, (hs.trans hss).congr fun t => by rw [List.zip_cons_cons, List.mem_cons]⟩
      rcases List.mem_cons.mp hw' with rfl | hw'
      · exact Or.inr ⟨(w, i), by simp, hw⟩
      · rcases hws w' hw' with hw' | ⟨t, ht, hw'⟩
        · exact Or.inl (by simp [hw'])
        · exact Or.inr ⟨t, by simp [ht], hw'⟩

/-- One pass of the loop. -/
theorem loopBody_ok {d d' : Download B} (hidle : ∀ w ∈ d.workers, w.thread = none)
    (hn : d.store.piecesToDownload.Nodup) (h : loopBody ops d = .ok () d') :
    (∀ w' ∈ d'.workers, w' ∈ d.workers ∨ ∃ t ∈ d.transfers, Transferred ops t w') ∧
      Settles ops (· ∈ d.transfers) d.store d'.store := by
  cases hr : round ops d.workers d.store with
  | error e s' =>
    rw [loopBody_of_error ops hr] at h
    cases h
  | ok workers' s' =>
    rw [loopBody_of_ok ops hr] at h
    cases h
    rw [round_idle ops hidle] at hr
    obtain ⟨hw, hs⟩ := awaitWorkers_ok d.workers d.store.piecesToDownload hidle (by exact hn) hr
    exact ⟨hw, hs.sublist, hs.written, hs.delivered, hs.keeps, hs.ostream⟩

/-! ## Runs -/

section
variable {n k : Nat} {shuffled : Shuffled n} {workers : List (Worker B)}
  {files : Nat → Option Bytes} {out : Bytes} {d : Download B}

variable (ops shuffled workers files out) in
/-- The transfers of the first `k` rounds. -/
def TransferBefore (k : Nat) (t : Worker B × Nat) : Prop :=
  ∃ j d, j < k ∧ Heads ops (.start shuffled workers files out) j d ∧ t ∈ d.transfers

theorem transferBefore_succ (h : Heads ops (.start shuffled workers files out) k d)
    (t : Worker B × Nat) : TransferBefore ops shuffled workers files out (k + 1) t ↔
      TransferBefore ops shuffled workers files out k t ∨ t ∈ d.transfers := by
  constructor
  · intro hbefore
    obtain ⟨j, d', hj, hd', ht⟩ := hbefore
    rcases Nat.lt_or_eq_of_le (Nat.le_of_lt_succ hj) with hj | rfl
    · exact Or.inl ⟨j, d', hj, hd', ht⟩
    · obtain rfl := h.unique hd'
      exact Or.inr ht
  · intro hbefore
    rcases hbefore with ⟨j, d', hj, hd', ht⟩ | ht
    · exact ⟨j, d', Nat.lt_succ_of_lt hj, hd', ht⟩
    · exact ⟨k, d, Nat.lt_succ_self k, h, ht⟩

/-- What a transfer does to a worker, the rounds do to the workers. -/
theorem workers_heads {I : B → Prop} (hidle : ∀ w ∈ workers, w.thread = none)
    (hstart : ∀ w ∈ workers, I w.body)
    (hstep : ∀ t w', I t.1.body → Transferred ops t w' → I w'.body)
    (h : Heads ops (.start shuffled workers files out) k d) :
    ∀ w ∈ d.workers, w.thread = none ∧ I w.body := by
  refine h.rule (I := fun _ d => ∀ w ∈ d.workers, w.thread = none ∧ I w.body)
    (fun w hw => ⟨hidle w hw, hstart w hw⟩) ?_
  intro k d d' hd hi _ hb w' hw'
  have hn := (scheduled_iterates ops hd).nodup
  rcases (loopBody_ok (fun w hw => (hi w hw).1) hn hb).1 w' hw' with hw' | ⟨t, ht, hw'⟩
  · exact hi w' hw'
  · exact ⟨hw'.thread, hstep t w' (hi _ (List.of_mem_zip ht).1).2 hw'⟩

theorem idle_heads (hidle : ∀ w ∈ workers, w.thread = none)
    (h : Heads ops (.start shuffled workers files out) k d) : ∀ w ∈ d.workers, w.thread = none :=
  fun w hw => (workers_heads (I := fun _ => True) hidle (fun _ _ => trivial)
    (fun _ _ _ _ => trivial) h w hw).1

/-- The same from a later head on. -/
theorem workers_from {I : B → Prop} (hidle : ∀ w ∈ workers, w.thread = none)
    {k₀ : Nat} {d₀ : Download B} (h₀ : Heads ops (.start shuffled workers files out) k₀ d₀)
    (hstart : ∀ w ∈ d₀.workers, I w.body)
    (hstep : ∀ t w', I t.1.body → Transferred ops t w' → I w'.body)
    (h : Heads ops (.start shuffled workers files out) k d) (hk : k₀ ≤ k) :
    ∀ w ∈ d.workers, I w.body := by
  refine h.rule (I := fun k d => k₀ ≤ k → ∀ w ∈ d.workers, I w.body) ?_ ?_ hk
  · intro hk
    obtain rfl := Nat.le_zero.mp hk
    cases h₀
    exact hstart
  · intro k d d' hd ih hrun hb hk w' hw'
    rcases Nat.lt_or_eq_of_le hk with hk | rfl
    · have hn := (scheduled_iterates ops hd).nodup
      rcases (loopBody_ok (idle_heads hidle hd) hn hb).1 w' hw' with hw' | ⟨t, ht, hw'⟩
      · exact ih (Nat.le_of_lt_succ hk) w' hw'
      · exact hstep t w' (ih (Nat.le_of_lt_succ hk) _ (List.of_mem_zip ht).1) hw'
    · obtain rfl := h₀.unique (.succ hd hrun hb)
      exact hstart w' hw'

theorem settles_heads (hidle : ∀ w ∈ workers, w.thread = none)
    (h : Heads ops (.start shuffled workers files out) k d) :
    Settles ops (TransferBefore ops shuffled workers files out k)
      (Download.start shuffled workers files out).store d.store := by
  refine h.rule (I := fun k d => Settles ops (TransferBefore ops shuffled workers files out k)
    (Download.start shuffled workers files out).store d.store) (.none ?_ _) ?_
  · intro t b hbefore
    obtain ⟨j, _, hj, _⟩ := hbefore
    exact absurd hj (Nat.not_lt_zero j)
  · intro k d d' hd hs _ hb
    have hn := (scheduled_iterates ops hd).nodup
    have hround := (loopBody_ok (idle_heads hidle hd) hn hb).2
    exact (hs.trans hround).congr (transferBefore_succ hd)

/-- The files written so far have a property exactly when all deliveries so far had it. -/
theorem files_iff (hidle : ∀ w ∈ workers, w.thread = none)
    (h : Heads ops (.start shuffled workers files out) k d) (P : Nat → Bytes → Prop) :
    (∀ i ∈ d.store.written, ∃ content, d.store.files i = some content ∧ P i content) ↔
      ∀ t b, TransferBefore ops shuffled workers files out k t → Ends ops t b →
        P (ops.lastPieceIdx b) (ops.piece b) := by
  have hs := settles_heads hidle h
  constructor
  · intro hall t b ht hb
    obtain ⟨content, hc, hp⟩ := hall _ ((hs.written _).mpr (Or.inr ⟨t, b, ht, hb, rfl⟩))
    rw [(hs.delivered t b ht hb).2] at hc
    cases hc
    exact hp
  · intro hall i hi
    rcases (hs.written i).mp hi with hi | ⟨t, b, ht, hb, rfl⟩
    · cases hi
    · exact ⟨ops.piece b, (hs.delivered t b ht hb).2, hall t b ht hb⟩

end

end

/-! ## Setting up -/

section
variable {sha1 : Bytes → Digest} {makeAddress : Bytes → Except Exception Unit}
  {metainfo : Metainfo}

/-- A worker of the download: idle, and connected when it was set up. -/
def Connected (sha1 : Bytes → Digest) (metainfo : Metainfo) (socket : Socket)
    (w : Worker PieceWorker) : Prop :=
  w.thread = none ∧ ∃ peerIp peerPort,
    connectToPeer sha1 (.new metainfo peerIp peerPort socket) = .ok () w.body

theorem setupWorker_ok {peer : Bytes} {socket : Socket} {w : Worker PieceWorker}
    (h : setupWorker sha1 makeAddress metainfo peer socket = .ok (some w)) :
    Connected sha1 metainfo socket w := by
  obtain ⟨⟨peerIp, peerPort⟩, _, h₁⟩ := except_bind_eq_ok.mp h
  obtain ⟨_, _, h₂⟩ := except_bind_eq_ok.mp h₁
  have hnew := connectToPeer_established sha1
    (.new metainfo (toText peerIp) (Lib.Decimal.value peerPort) socket) rfl
  simp only [Worker.checkConnectionAsync, Worker.new, Worker.started, Option.isSome_none,
    Bool.false_eq_true, if_false, Worker.waitConnectionEstablished, Worker.join, Worker.runTask,
    pieceWorker, bind, Except.bind] at h₂
  cases hc : connectToPeer sha1
      (.new metainfo (toText peerIp) (Lib.Decimal.value peerPort) socket) with
  | ok u body =>
    rw [hc] at h₂ hnew
    simp only [hnew, if_true] at h₂
    cases h₂
    exact ⟨rfl, _, _, hc⟩
  | error e body =>
    rw [hc] at h₂ hnew
    cases he : e.caught with
    | true => simp [he, hnew] at h₂
    | false => simp [he] at h₂

theorem setupWorkers_ok (peers : List (Bytes × Socket)) : ∀ {workers : List (Worker PieceWorker)},
    setupWorkers sha1 makeAddress metainfo peers = .ok workers →
    ∀ w ∈ workers, ∃ peer ∈ peers, Connected sha1 metainfo peer.2 w := by
  induction peers with
  | nil =>
    intro workers h w hw
    cases h
    exact absurd hw List.not_mem_nil
  | cons peer peers ih =>
    intro workers h w hw
    obtain ⟨worker, hworker, h₁⟩ := except_bind_eq_ok.mp h
    obtain ⟨rest, hrest, h₂⟩ := except_bind_eq_ok.mp h₁
    cases h₂
    rcases List.mem_append.mp hw with hw | hw
    · rw [Option.mem_toList] at hw
      exact ⟨peer, List.mem_cons_self .., setupWorker_ok (hw ▸ hworker)⟩
    · obtain ⟨peer', hp, hc⟩ := ih hrest w hw
      exact ⟨peer', List.mem_cons_of_mem _ hp, hc⟩

theorem idle_of_setup {peers : List (Bytes × Socket)} {workers : List (Worker PieceWorker)}
    (h : setupWorkers sha1 makeAddress metainfo peers = .ok workers) :
    ∀ w ∈ workers, w.thread = none := by
  intro w hw
  obtain ⟨_, _, hidle, _⟩ := setupWorkers_ok peers h w hw
  exact hidle

/-- What setting up a connection brings about and a transfer keeps, all workers have. -/
theorem keeps_heads {I : PieceWorker → Prop} {peers : List (Bytes × Socket)}
    {workers : List (Worker PieceWorker)} {n k : Nat} {shuffled : Shuffled n}
    {files : Nat → Option Bytes} {out : Bytes} {d : Download PieceWorker}
    (hsetup : setupWorkers sha1 makeAddress metainfo peers = .ok workers)
    (hconnect : ∀ peer ∈ peers, ∀ peerIp peerPort w,
      connectToPeer sha1 (.new metainfo peerIp peerPort peer.2) = .ok () w → I w)
    (hkeeps : ∀ pieceIdx, Keeps I (downloadPiece sha1 pieceIdx))
    (h : Heads (pieceWorker sha1) (.start shuffled workers files out) k d) :
    ∀ w ∈ d.workers, I w.body := by
  intro w hw
  refine (workers_heads (idle_of_setup hsetup) (fun w hw => ?_) (fun t w' hi hw' => ?_) h w hw).2
  · obtain ⟨peer, hp, _, _, _, hc⟩ := setupWorkers_ok peers hsetup w hw
    exact hconnect peer hp _ _ _ hc
  · rcases hw'.body with hx | ⟨e, hx, _⟩
    · exact (hkeeps t.2).ok hi hx
    · exact (hkeeps t.2).error hi hx

/-- A download that comes to its loop has one sequence of heads. -/
theorem reaches_iff_heads {peers : List (Bytes × Socket)} {n j : Nat} {shuffled : Shuffled n}
    {files : Nat → Option Bytes} {out : Bytes} {d₀ : Download PieceWorker}
    (h : DownloadFile.Reaches sha1 makeAddress metainfo peers shuffled files out j d₀) :
    ∃ workers, setupWorkers sha1 makeAddress metainfo peers = .ok workers ∧
      ∀ k d, DownloadFile.Reaches sha1 makeAddress metainfo peers shuffled files out k d ↔
        Heads (pieceWorker sha1) (.start shuffled workers files out) k d := by
  obtain ⟨pieces, workers, hpieces, hn, hsetup, hne, _⟩ := h
  refine ⟨workers, hsetup, fun k d => ⟨?_, fun hd => ⟨pieces, workers, hpieces, hn, hsetup, hne, hd⟩⟩⟩
  intro hreach
  obtain ⟨_, workers', _, _, hsetup', _, hd⟩ := hreach
  obtain rfl : workers = workers' := Except.ok.inj (hsetup.symm.trans hsetup')
  exact hd

end

/-! ## A download of one piece from one peer -/

def loneShuffled : Shuffled 1 := ⟨[0], by decide⟩

def lonePeer (socket : Socket) : List (Bytes × Socket) := [(ascii "127.0.0.1:6881", socket)]

/-- The head after the first round. -/
def loneHead (socket : Socket) : Except Exception (Download PieceWorker) := do
  let workers ← setupWorkers lengthDigest (fun _ => .ok ()) onePiece (lonePeer socket)
  match loopBody (pieceWorker lengthDigest) (.start loneShuffled workers (fun _ => none) []) with
  | .ok _ d => .ok d
  | .error e _ => .error e

theorem reaches_of_loneHead {socket : Socket} {d : Download PieceWorker}
    (h : loneHead socket = .ok d) (hne : d.workers ≠ []) :
    DownloadFile.Reaches lengthDigest (fun _ => .ok ()) onePiece (lonePeer socket) loneShuffled
      (fun _ => none) [] 1 d := by
  obtain ⟨workers, hw, h₁⟩ := except_bind_eq_ok.mp h
  cases hb : loopBody (pieceWorker lengthDigest)
      (.start loneShuffled workers (fun _ => none) []) with
  | error e d' =>
    rw [hb] at h₁
    cases h₁
  | ok u d' =>
    rw [hb] at h₁
    cases h₁
    refine ⟨_, workers, rfl, rfl, hw, ?_, .succ .zero (List.cons_ne_nil 0 []) hb⟩
    rintro rfl
    cases hb
    exact hne rfl

end Bittorrent.Client

import Bittorrent.Client.DownloadFile

/-! What the loop of `download_file` guarantees whatever its workers do
(`scheduled_heads`), and what it does when they deliver (`download_schedule`). -/

namespace Bittorrent.Client

open Lib.Exec

/-! ## Pieces are written once each -/

/-- The pieces left are in the order of the shuffle, the others were written once each. -/
structure Scheduled {n : Nat} (shuffled : Shuffled n) (s : Store) : Prop where
  sublist : s.piecesToDownload.Sublist shuffled.indexes
  written_nodup : s.written.Nodup
  written_iff : ∀ i, i ∈ s.written ↔ i < n ∧ i ∉ s.piecesToDownload
  files : ∀ i ∈ s.written, (s.files i).isSome = true

section
variable {n : Nat} {shuffled : Shuffled n}

theorem Shuffled.nodup (shuffled : Shuffled n) : shuffled.indexes.Nodup :=
  shuffled.perm.nodup_iff.mpr List.nodup_range

theorem Shuffled.mem_iff (shuffled : Shuffled n) {i : Nat} : i ∈ shuffled.indexes ↔ i < n :=
  shuffled.perm.mem_iff.trans List.mem_range

theorem Scheduled.nodup {s : Store} (h : Scheduled shuffled s) : s.piecesToDownload.Nodup :=
  h.sublist.nodup shuffled.nodup

theorem Scheduled.start (shuffled : Shuffled n) (files : Nat → Option Bytes) (ostream : Bytes) :
    Scheduled shuffled ⟨shuffled.indexes, files, ostream, [], []⟩ where
  sublist := List.Sublist.refl _
  written_nodup := List.nodup_nil
  written_iff i := by
    have := shuffled.mem_iff (i := i)
    simp [this]
  files := by simp

/-- Taking a piece off the list and writing it. -/
theorem Scheduled.write {s : Store} (h : Scheduled shuffled s) {idx : Nat}
    (hidx : idx ∈ s.piecesToDownload) (piece : Bytes) :
    Scheduled shuffled { s with
      piecesToDownload := s.piecesToDownload.erase idx
      files := fun i => if i = idx then some piece else s.files i
      written := s.written ++ [idx] } where
  sublist := (List.erase_sublist).trans h.sublist
  written_nodup := by
    have hnew : idx ∉ s.written := fun hw => ((h.written_iff idx).mp hw).2 hidx
    exact List.nodup_append.mpr ⟨h.written_nodup, List.nodup_singleton idx, fun a ha b hb => by
      rw [List.mem_singleton.mp hb]
      rintro rfl
      exact hnew ha⟩
  written_iff i := by
    have hlt : idx < n := shuffled.mem_iff.mp (h.sublist.mem hidx)
    show i ∈ s.written ++ [idx] ↔ i < n ∧ i ∉ s.piecesToDownload.erase idx
    rw [List.mem_append, List.mem_singleton, h.written_iff i, h.nodup.mem_erase_iff]
    by_cases hi : i = idx
    · subst hi
      simp [hlt]
    · simp [hi]
  files i hi := by
    show (if i = idx then some piece else s.files i).isSome = true
    split
    · rfl
    · next hne =>
      rcases List.mem_append.mp hi with hi | hi
      · exact h.files i hi
      · exact absurd (List.mem_singleton.mp hi) hne

variable {B : Type} (ops : PieceBody B)

theorem triple_lift {α : Type} {I : Store → Prop} (x : Except Exception α) :
    Triple I (lift x) (fun _ => I) (fun _ => I) := by
  cases x with
  | ok a => exact .pure a fun _ h => h
  | error e => exact .throw e fun _ h => h

/-- Whatever the worker did, at most the piece it reports is popped and written. -/
theorem scheduled_awaitWorker (w : Worker B) :
    Triple (Scheduled shuffled) (awaitWorker ops w) (fun _ => Scheduled shuffled)
      (fun _ => Scheduled shuffled) := by
  refine .ite (fun _ => .pure _ fun _ h => h) fun _ => (triple_lift _).bind fun r => ?_
  obtain ⟨complete, w'⟩ := r
  refine .ite (fun _ => ?_) fun _ => .ite (fun _ => .pure _ fun _ h => h) fun _ => ?_
  · intro s hs
    by_cases hmem : ops.lastPieceIdx w'.body ∈ s.piecesToDownload
    · have hpop : popPiece (ops.lastPieceIdx w'.body) s = .ok () { s with
          piecesToDownload := s.piecesToDownload.erase (ops.lastPieceIdx w'.body) } := if_pos hmem
      rw [bind_of_ok hpop]
      exact hs.write hmem (ops.piece w'.body)
    · have hpop : popPiece (ops.lastPieceIdx w'.body) s = .error _ s := if_neg hmem
      rw [bind_of_error hpop]
      exact hs
  · exact (triple_lift _).bind fun _ => .pure _ fun _ h => h

theorem scheduled_awaitWorkers (workers : List (Worker B)) :
    Triple (Scheduled shuffled) (awaitWorkers ops workers) (fun _ => Scheduled shuffled)
      (fun _ => Scheduled shuffled) := by
  induction workers with
  | nil => exact .pure _ fun _ h => h
  | cons w workers ih =>
    exact (scheduled_awaitWorker ops w).bind fun _ => ih.bind fun _ => .pure _ fun _ h => h

theorem scheduled_round (workers : List (Worker B)) :
    Triple (Scheduled shuffled) (round ops workers) (fun _ => Scheduled shuffled)
      (fun _ => Scheduled shuffled) := by
  refine .bind (R := fun _ => Scheduled shuffled) (.reading fun store _ => ?_)
    fun workers => scheduled_awaitWorkers ops workers
  refine (triple_lift _).bind fun _ => .bind (R := fun _ => Scheduled shuffled) ?_
    fun _ => .pure _ fun _ h => h
  exact .modify fun s hs => ⟨hs.sublist, hs.written_nodup, hs.written_iff, hs.files⟩

theorem scheduled_iterates {workers : List (Worker B)} {files : Nat → Option Bytes}
    {ostream : Bytes} {k : Nat} {d : Download B}
    (h : Heads ops (.start shuffled workers files ostream) k d) : Scheduled shuffled d.store := by
  refine h.invariant (I := fun d => Scheduled shuffled d.store) (.start shuffled files ostream) ?_
  intro d d' hd _ hb
  unfold loopBody at hb
  cases hr : round ops d.workers d.store with
  | ok workers' store' =>
    rw [hr] at hb
    cases hb
    exact (scheduled_round ops _).ok hd hr
  | error e store' =>
    rw [hr] at hb
    cases hb

/-! ## Gathering -/

theorem copyFile_eq (fuel : Nat) : ∀ (content : Bytes) (s : Store), content.length < fuel →
    copyFile fuel content s = .ok () { s with ostream := s.ostream ++ content } := by
  induction fuel with
  | zero => exact fun _ _ h => absurd h (Nat.not_lt_zero _)
  | succ fuel ih =>
    intro content s hlt
    have hstep : copyFile (fuel + 1) content s =
        (if (content.take 512).length = 0 then pure () else copyFile fuel (content.drop 512) :
          Scheduler Unit) { s with ostream := s.ostream ++ content.take 512 } := rfl
    rw [hstep]
    split
    · next h0 =>
      have hnil : content = [] := by
        rw [List.length_take] at h0
        exact List.length_eq_zero_iff.mp (by omega)
      simp [hnil, pure, EStateM.pure]
    · next h0 =>
      rw [ih _ _ (by simp only [List.length_take, List.length_drop] at h0 ⊢; omega)]
      simp

theorem gatherPiece_eq {piece : Nat} {s : Store} {content : Bytes}
    (h : s.files piece = some content) :
    gatherPiece piece s = .ok () { s with ostream := s.ostream ++ content } := by
  refine (get_bind _ s).trans ?_
  rw [h]
  exact copyFile_eq _ content s (Nat.lt_succ_self _)

theorem gatherFrom_eq (count : Nat) : ∀ (piece : Nat) (s : Store),
    (∀ i, piece ≤ i → i < piece + count → (s.files i).isSome = true) →
    gatherFrom count piece s = .ok () { s with
      ostream := s.ostream ++ (List.range' piece count).flatMap fun i => (s.files i).getD [] } := by
  induction count with
  | zero =>
    intro piece s _
    simp [gatherFrom, pure, EStateM.pure]
  | succ count ih =>
    intro piece s hfiles
    obtain ⟨content, hc⟩ := Option.isSome_iff_exists.mp (hfiles piece (Nat.le_refl _) (by omega))
    refine (bind_of_ok (gatherPiece_eq hc)).trans ?_
    have hrest := ih (piece + 1) { s with ostream := s.ostream ++ content }
      fun i hl hu => hfiles i (by omega) (by omega)
    refine hrest.trans ?_
    simp [List.range'_succ, hc]

/-- With all files in place the output gets them in order. -/
theorem gatherPieces_eq {piecesCount : Nat} {s : Store}
    (h : ∀ i, i < piecesCount → (s.files i).isSome = true) :
    gatherPieces piecesCount s = .ok () { s with
      ostream := s.ostream ++ (List.range piecesCount).flatMap fun i => (s.files i).getD [] } := by
  rw [gatherPieces, gatherFrom_eq _ _ _ fun i _ hu => h i (by omega), List.range_eq_range']

theorem Scheduled.all_written {s : Store} (h : Scheduled shuffled s)
    (hend : s.piecesToDownload = []) : s.written.Perm (List.range n) := by
  rw [List.perm_ext_iff_of_nodup h.written_nodup List.nodup_range]
  intro i
  rw [h.written_iff, hend, List.mem_range]
  simp

/-- At every loop head the pieces left and the pieces written are the whole
list, each piece once; so gathering finds every file. -/
theorem scheduled_heads {workers : List (Worker B)} {files : Nat → Option Bytes}
    {ostream : Bytes} {k : Nat} {d : Download B}
    (h : Heads ops (.start shuffled workers files ostream) k d) :
    d.store.piecesToDownload.Sublist shuffled.indexes ∧ d.store.piecesToDownload.Nodup ∧
    d.store.written.Nodup ∧ (∀ i, i ∈ d.store.written ↔ i < n ∧ i ∉ d.store.piecesToDownload) ∧
    (¬ Running d → d.store.written.Perm (List.range n) ∧
      ∃ store, gatherPieces n d.store = .ok () store) := by
  have hs := scheduled_iterates ops h
  refine ⟨hs.sublist, hs.nodup, hs.written_nodup, hs.written_iff, fun hrun => ?_⟩
  have hend : d.store.piecesToDownload = [] := Decidable.not_not.mp hrun
  refine ⟨hs.all_written hend, _, gatherPieces_eq fun i hi => hs.files i ?_⟩
  rw [hs.written_iff, hend]
  exact ⟨hi, List.not_mem_nil⟩

end

/-- A body whose transfers complete at once. -/
def instant : PieceBody Nat where
  downloadPiece := set
  connectToPeer := pure ()
  isPeerConnectionEstablished _ := true
  haveMode _ := false
  lastPieceIdx b := b
  piece b := [UInt8.ofNat b]

def threePieces : Shuffled 3 := ⟨[2, 0, 1], by decide⟩

theorem scheduled_heads_instant :
    ∃ d, Heads instant (.start threePieces [.new 0, .new 0] (fun _ => none) []) 1 d ∧
      d.store.piecesToDownload.Sublist [2, 0, 1] ∧ d.store.piecesToDownload.Nodup ∧
      d.store.written.Nodup ∧
      (∀ i, i ∈ d.store.written ↔ i < 3 ∧ i ∉ d.store.piecesToDownload) ∧
      (¬ Running d → d.store.written.Perm (List.range 3) ∧
        ∃ store, gatherPieces 3 d.store = .ok () store) := by
  have h : Heads instant (.start threePieces [.new 0, .new 0] (fun _ => none) []) 1 _ :=
    .succ .zero (by simp [Running, Download.start, threePieces]) rfl
  exact ⟨_, h, scheduled_heads instant h⟩

/-! ## Workers that deliver -/

section
variable {B : Type}

/-- A worker with its transfer started. -/
def Worker.assigned (w : Worker B) (index : Nat) : Worker B :=
  { w with isPieceTransferComplete := false, thread := some (.downloadPiece index) }

/-- The workers after `start_workers`, one index each as far as they go. -/
def assign : List (Worker B) → List Nat → List (Worker B)
  | [], _ => []
  | workers, [] => workers
  | w :: workers, i :: indexes => w.assigned i :: assign workers indexes

theorem startLoop_idle {workers : List (Worker B)} (h : ∀ w ∈ workers, w.thread = none) :
    ∀ indexes, startLoop indexes workers =
      .ok (assign workers indexes, indexes.take workers.length) := by
  induction workers with
  | nil => intro indexes; simp [startLoop, assign]
  | cons w workers ih =>
    intro indexes
    cases indexes with
    | nil => simp [startLoop, assign]
    | cons i indexes =>
      have hw : w.started = false := by simp [Worker.started, h w (by simp)]
      have ih := ih (fun w hw => h w (by simp [hw])) indexes
      simp [startLoop, hw, Worker.downloadPieceAsync, ih, assign, Worker.assigned, bind, Except.bind]

theorem assign_take (workers : List (Worker B)) : ∀ indexes,
    assign workers (indexes.take workers.length) = assign workers indexes := by
  induction workers with
  | nil => intro _; rfl
  | cons w workers ih =>
    intro indexes
    cases indexes with
    | nil => rfl
    | cons i indexes => simp [assign, ih]

theorem getSomeIndexes_eq (indexes : List Nat) (upTo : Nat) :
    getSomeIndexes indexes upTo = indexes.take upTo := by
  unfold getSomeIndexes
  split
  · next h => simp [List.isEmpty_iff.mp h]
  · rw [← List.take_eq_take_min]

/-- The store when `count` workers were given their pieces. -/
def Store.request (s : Store) (count : Nat) : Store :=
  { s with requested := s.requested ++ s.piecesToDownload.take count }

@[simp] theorem Store.request_piecesToDownload (s : Store) (count : Nat) :
    (s.request count).piecesToDownload = s.piecesToDownload := rfl

theorem startWorkers_idle {workers : List (Worker B)} (h : ∀ w ∈ workers, w.thread = none)
    (s : Store) : startWorkers workers s =
      .ok (assign workers s.piecesToDownload) (s.request workers.length) := by
  have hcount : workers.countP (fun w => !w.started) = workers.length :=
    List.countP_eq_length.mpr fun w hw => by simp [Worker.started, h w hw]
  have hloop := startLoop_idle h (s.piecesToDownload.take workers.length)
  rw [assign_take, List.take_take, Nat.min_self] at hloop
  refine (get_bind _ s).trans ?_
  dsimp only
  rw [hcount, getSomeIndexes_eq, hloop]
  rfl

variable (ops : PieceBody B) {c : Nat → Bytes}

theorem awaitWorkers_idle {workers : List (Worker B)} (h : ∀ w ∈ workers, w.thread = none)
    (s : Store) : awaitWorkers ops workers s = .ok workers s := by
  induction workers with
  | nil => rfl
  | cons w workers ih =>
    have hw : awaitWorker ops w s = .ok w s := by
      simp [awaitWorker, Worker.started, h w (by simp), pure, EStateM.pure]
    rw [awaitWorkers, bind_of_ok hw, bind_of_ok (ih fun w hw => h w (by simp [hw]))]
    rfl

/-- The worker after a transfer that ended in `b` without an exception. -/
def Worker.complete (w : Worker B) (b : B) : Worker B :=
  { w with body := b, thread := none, isPieceTransferComplete := true }

theorem awaitWorker_assigned (w : Worker B) (i : Nat) (s : Store) :
    awaitWorker ops (w.assigned i) s = (do
      let (complete, w) ← lift ((w.assigned i).waitPieceTransfer ops)
      if complete then
        popPiece (ops.lastPieceIdx w.body)
        writePiece (ops.piece w.body) (ops.lastPieceIdx w.body)
        return w
      else if ops.haveMode w.body then
        return w
      else
        lift w.raise
        return w : Scheduler (Worker B)) s := rfl

theorem wait_of_ok {w : Worker B} {i : Nat} {b : B}
    (hx : ops.downloadPiece i w.body = .ok () b) :
    (w.assigned i).waitPieceTransfer ops = .ok (true, w.complete b) := by
  simp [Worker.waitPieceTransfer, Worker.join, Worker.assigned, Worker.complete, Worker.runTask, hx,
    bind, Except.bind]

/-- The worker after a transfer that threw. -/
def Worker.failed (w : Worker B) (e : Exception) (b : B) : Worker B :=
  { w with body := b, thread := none, exception := some e, isPieceTransferComplete := false }

theorem wait_of_error {w : Worker B} {i : Nat} {b : B} {e : Exception}
    (hx : ops.downloadPiece i w.body = .error e b) :
    (w.assigned i).waitPieceTransfer ops =
      if e.caught then .ok (false, w.failed e b) else .error e := by
  cases he : e.caught <;>
    simp [Worker.waitPieceTransfer, Worker.join, Worker.assigned, Worker.failed, Worker.runTask, hx,
      he, bind, Except.bind]

def downloadedTwice (idx : Nat) : Exception :=
  .runtimeError s!"Can download piece twice! Bad piece: {idx}"

/-- The store when a piece was taken off the list and written. -/
def Store.settle (s : Store) (pieceIdx : Nat) (piece : Bytes) : Store :=
  { s with
    piecesToDownload := s.piecesToDownload.erase pieceIdx
    files := fun j => if j = pieceIdx then some piece else s.files j
    written := s.written ++ [pieceIdx] }

/-- A transfer that returned delivers the piece its worker reports, if that is on the list. -/
theorem awaitWorker_of_ok {w : Worker B} {i : Nat} {b : B} (s : Store)
    (hx : ops.downloadPiece i w.body = .ok () b) :
    awaitWorker ops (w.assigned i) s =
      if ops.lastPieceIdx b ∈ s.piecesToDownload then
        .ok (w.complete b) (s.settle (ops.lastPieceIdx b) (ops.piece b))
      else .error (downloadedTwice (ops.lastPieceIdx b)) s := by
  rw [awaitWorker_assigned, wait_of_ok ops hx]
  split
  · next hmem =>
    have hpop : popPiece (ops.lastPieceIdx b) s = .ok () { s with
        piecesToDownload := s.piecesToDownload.erase (ops.lastPieceIdx b) } := if_pos hmem
    exact (bind_of_ok hpop).trans rfl
  · next hmem =>
    have hpop : popPiece (ops.lastPieceIdx b) s = .error (downloadedTwice (ops.lastPieceIdx b)) s :=
      if_neg hmem
    exact (bind_of_error hpop).trans rfl

/-- After a transfer that threw the round goes on when the worker is in have mode. -/
theorem awaitWorker_of_error {w : Worker B} {i : Nat} {b : B} {e : Exception} (s : Store)
    (hx : ops.downloadPiece i w.body = .error e b) (he : e.caught = true) :
    awaitWorker ops (w.assigned i) s =
      if ops.haveMode b = true then .ok (w.failed e b) s else .error e s := by
  rw [awaitWorker_assigned, wait_of_error ops hx, if_pos he]
  cases hm : ops.haveMode b with
  | true =>
    simp [lift, hm, Worker.failed]
    rfl
  | false =>
    simp [lift, hm, Worker.raise, Worker.failed]
    rfl

/-- The worker whose transfer completed with the piece it was given. -/
theorem awaitWorker_complete {w : Worker B} {i : Nat} {b : B} {s : Store}
    (hx : ops.downloadPiece i w.body = .ok () b) (hi : ops.lastPieceIdx b = i)
    (hs : i ∈ s.piecesToDownload) :
    awaitWorker ops (w.assigned i) s = .ok (w.complete b) (s.settle i (ops.piece b)) := by
  rw [awaitWorker_of_ok ops s hx, hi, if_pos hs]

theorem awaitWorker_failed {w : Worker B} {i : Nat} {b : B} {e : Exception} (s : Store)
    (hx : ops.downloadPiece i w.body = .error e b) (he : e.caught = true)
    (hm : ops.haveMode b = false) : awaitWorker ops (w.assigned i) s = .error e s := by
  rw [awaitWorker_of_error ops s hx he, if_neg (by simp [hm])]

/-- At a loop head all workers are idle: a round is the wait for the ones it starts. -/
theorem round_idle {d : Download B} (hidle : ∀ w ∈ d.workers, w.thread = none) :
    round ops d.workers d.store =
      awaitWorkers ops (assign d.workers d.store.piecesToDownload)
        (d.store.request d.workers.length) :=
  bind_of_ok (startWorkers_idle hidle d.store)

theorem loopBody_of_ok {d : Download B} {workers : List (Worker B)} {s : Store}
    (h : round ops d.workers d.store = .ok workers s) : loopBody ops d = .ok () ⟨workers, s⟩ := by
  rw [loopBody, h]

theorem loopBody_of_error {d : Download B} {e : Exception} {s : Store}
    (h : round ops d.workers d.store = .error e s) :
    loopBody ops d = .error e ⟨d.workers, s⟩ := by
  rw [loopBody, h]

/-- The transfers a round starts. -/
def Download.transfers (d : Download B) : List (Worker B × Nat) :=
  d.workers.zip d.store.piecesToDownload

/-- The transfer brings `c` of its piece or fails, and the worker is not in have mode. -/
structure Delivers (c : Nat → Bytes) (t : Worker B × Nat) : Prop where
  complete : ∀ b, ops.downloadPiece t.2 t.1.body = .ok () b →
    ops.lastPieceIdx b = t.2 ∧ ops.piece b = c t.2
  failed : ∀ e b, ops.downloadPiece t.2 t.1.body = .error e b →
    e.caught = true ∧ ops.haveMode b = false

def Completes (t : Worker B × Nat) : Prop := ∃ b, ops.downloadPiece t.2 t.1.body = .ok () b

instance (t : Worker B × Nat) : Decidable (Completes ops t) :=
  match h : ops.downloadPiece t.2 t.1.body with
  | .ok _ b => .isTrue ⟨b, h⟩
  | .error _ _ => .isFalse fun ⟨_, hb⟩ => by
    rw [h] at hb
    cases hb

def FailsWith (e : Exception) (t : Worker B × Nat) : Prop :=
  ∃ b, ops.downloadPiece t.2 t.1.body = .error e b

/-- The store after the pieces `done` arrived, `left` being the others. -/
structure Arrived (c : Nat → Bytes) (s : Store) (done left : List Nat) (s' : Store) : Prop where
  piecesToDownload : s'.piecesToDownload = left
  files : ∀ i, s'.files i = if i ∈ done then some (c i) else s.files i
  ostream : s'.ostream = s.ostream
  requested : s'.requested = s.requested
  written : s'.written = s.written ++ done

theorem Arrived.cons {s s' s'' : Store} {i : Nat} {done left left' : List Nat}
    (h : Arrived c s [i] left s') (h' : Arrived c s' done left' s'') :
    Arrived c s (i :: done) left' s'' where
  piecesToDownload := h'.piecesToDownload
  files j := by
    rw [h'.files j, h.files j]
    by_cases hj : j ∈ done
    · simp [hj]
    · simp [hj]
  ostream := h'.ostream.trans h.ostream
  requested := h'.requested.trans h.requested
  written := by
    rw [h'.written, h.written, List.append_assoc]
    rfl

/-- Awaiting the started workers one after the other: the pieces arrive in the
order they were requested, up to the first transfer that failed. -/
theorem awaitWorkers_assign (workers : List (Worker B)) : ∀ (s : Store),
    (∀ w ∈ workers, w.thread = none) →
    (∀ t ∈ workers.zip s.piecesToDownload, Delivers ops c t) →
    match awaitWorkers ops (assign workers s.piecesToDownload) s with
    | .ok workers' s' => (∀ t ∈ workers.zip s.piecesToDownload, Completes ops t) ∧
        (∀ w ∈ workers', w.thread = none) ∧ workers'.length = workers.length ∧
        Arrived c s (s.piecesToDownload.take workers.length)
          (s.piecesToDownload.drop workers.length) s'
    | .error e s' => s'.ostream = s.ostream ∧
        ∃ t ∈ workers.zip s.piecesToDownload, FailsWith ops e t := by
  induction workers with
  | nil =>
    intro s _ _
    exact ⟨nofun, nofun, rfl, ⟨rfl, fun _ => rfl, rfl, rfl, (List.append_nil _).symm⟩⟩
  | cons w workers ih =>
    intro s hidle hdel
    cases hp : s.piecesToDownload with
    | nil =>
      rw [assign, awaitWorkers_idle ops hidle]
      · refine ⟨by simp, hidle, rfl, ?_⟩
        simp only [List.take_nil, List.drop_nil]
        exact ⟨hp, fun _ => rfl, rfl, rfl, (List.append_nil _).symm⟩
      · exact nofun
    | cons i pieces =>
      rw [hp, List.zip_cons_cons] at hdel
      have hw := hdel _ (List.mem_cons_self ..)
      rw [assign, awaitWorkers]
      cases hx : ops.downloadPiece i w.body with
      | error e b =>
        obtain ⟨he, hm⟩ := hw.failed e b hx
        rw [bind_of_error (awaitWorker_failed ops s hx he hm)]
        exact ⟨rfl, (w, i), by simp, b, hx⟩
      | ok u b =>
        obtain ⟨hi, hc⟩ := hw.complete b hx
        have hleft : (s.settle i (ops.piece b)).piecesToDownload = pieces := by
          simp [Store.settle, hp]
        have ih := ih (s.settle i (ops.piece b)) (fun w hw => hidle w (by simp [hw]))
        rw [hleft] at ih
        specialize ih fun t ht => hdel t (by simp [ht])
        have harr : Arrived c s [i] pieces (s.settle i (ops.piece b)) :=
          ⟨hleft, fun j => by by_cases hj : j = i <;> simp [Store.settle, hj, hc], rfl, rfl, rfl⟩
        rw [bind_of_ok (awaitWorker_complete ops hx hi (by simp [hp]))]
        cases hr : awaitWorkers ops (assign workers pieces) (s.settle i (ops.piece b)) with
        | ok workers' s' =>
          rw [hr] at ih
          obtain ⟨hall, hidle', hlen, harr'⟩ := ih
          rw [bind_of_ok hr]
          refine ⟨?_, ?_, by simp [hlen], harr.cons harr'⟩
          · intro t ht
            rcases List.mem_cons.mp ht with rfl | ht
            · exact ⟨b, hx⟩
            · exact hall t ht
          · intro w' hw'
            rcases List.mem_cons.mp hw' with rfl | hw'
            · rfl
            · exact hidle' w' hw'
        | error e s' =>
          rw [hr] at ih
          obtain ⟨ho, t, ht, hf⟩ := ih
          rw [bind_of_error hr]
          exact ⟨ho, t, by simp [ht], hf⟩

/-- At the head after `k` rounds, everything that could have arrived has. -/
structure Punctual {n : Nat} (shuffled : Shuffled n) (c : Nat → Bytes) (out : Bytes) (m k : Nat)
    (d : Download B) : Prop where
  idle : ∀ w ∈ d.workers, w.thread = none
  length : d.workers.length = m
  piecesToDownload : d.store.piecesToDownload = shuffled.indexes.drop (k * m)
  requested : d.store.requested = shuffled.indexes.take (k * m)
  written : d.store.written = shuffled.indexes.take (k * m)
  files : ∀ i ∈ d.store.written, d.store.files i = some (c i)
  ostream : d.store.ostream = out

variable {n m k : Nat} {shuffled : Shuffled n} {out : Bytes} {d d' : Download B} {e : Exception}

/-- A round from such a head: all its transfers complete, or it throws what one of them threw. -/
theorem Punctual.loopBody (h : Punctual shuffled c out m k d)
    (hdel : ∀ t ∈ d.transfers, Delivers ops c t) :
    match loopBody ops d with
    | .ok _ d' => (∀ t ∈ d.transfers, Completes ops t) ∧ Punctual shuffled c out m (k + 1) d'
    | .error e d' => d'.store.ostream = out ∧ ∃ t ∈ d.transfers, FailsWith ops e t := by
  have hawait := awaitWorkers_assign ops d.workers (d.store.request d.workers.length) h.idle hdel
  rw [Store.request_piecesToDownload, ← round_idle ops h.idle] at hawait
  cases hr : round ops d.workers d.store with
  | error e s' =>
    rw [hr] at hawait
    rw [loopBody_of_error ops hr]
    exact ⟨hawait.1.trans h.ostream, hawait.2⟩
  | ok workers' s' =>
    rw [hr] at hawait
    rw [loopBody_of_ok ops hr]
    obtain ⟨hall, hidle, hlen, harr⟩ := hawait
    have htake : shuffled.indexes.take ((k + 1) * m) =
        shuffled.indexes.take (k * m) ++ d.store.piecesToDownload.take d.workers.length := by
      rw [h.piecesToDownload, h.length, Nat.add_one_mul, List.take_add]
    refine ⟨hall, hidle, hlen.trans h.length, ?_, ?_, ?_, ?_, harr.ostream.trans h.ostream⟩
    · rw [harr.piecesToDownload, h.piecesToDownload, h.length, List.drop_drop, Nat.add_one_mul]
    · rw [harr.requested, htake, ← h.requested]
      rfl
    · rw [harr.written, htake, ← h.written]
      rfl
    · intro i hi
      rw [harr.written] at hi
      rw [harr.files]
      split
      · rfl
      · next hnot => exact h.files i ((List.mem_append.mp hi).resolve_right hnot)

section
variable {workers : List (Worker B)} {files : Nat → Option Bytes}

theorem punctual_heads (hidle : ∀ w ∈ workers, w.thread = none)
    (hdel : ∀ k d, Heads ops (.start shuffled workers files out) k d →
      ∀ t ∈ d.transfers, Delivers ops c t)
    (h : Heads ops (.start shuffled workers files out) k d) :
    Punctual shuffled c out workers.length k d := by
  refine h.rule (I := Punctual shuffled c out workers.length)
    ⟨hidle, rfl, by simp [Download.start], by simp [Download.start], by simp [Download.start],
      by simp [Download.start], rfl⟩ ?_
  intro k t t' ht hp _ hb
  have := hp.loopBody ops (hdel k t ht)
  rw [hb] at this
  exact this.2

/-- As long as pieces are left and no transfer fails there is a next head. -/
theorem heads_of_completes (hidle : ∀ w ∈ workers, w.thread = none)
    (hdel : ∀ k d, Heads ops (.start shuffled workers files out) k d →
      ∀ t ∈ d.transfers, Delivers ops c t)
    (hall : ∀ k d, Heads ops (.start shuffled workers files out) k d →
      ∀ t ∈ d.transfers, Completes ops t) :
    ∀ k, k * workers.length < n + workers.length →
      ∃ d, Heads ops (.start shuffled workers files out) k d := by
  intro k
  induction k with
  | zero => exact fun _ => ⟨_, .zero⟩
  | succ k ih =>
    intro hk
    rw [Nat.add_one_mul] at hk
    obtain ⟨d, hd⟩ := ih (by omega)
    have hp := punctual_heads ops hidle hdel hd
    have hleft : Running d := by
      intro hnil
      rw [hp.piecesToDownload, List.drop_eq_nil_iff, shuffled.perm.length_eq,
        List.length_range] at hnil
      omega
    have hbody := hp.loopBody ops (hdel k d hd)
    cases hb : loopBody ops d with
    | ok u d' => exact ⟨d', .succ hd hleft hb⟩
    | error e d' =>
      rw [hb] at hbody
      obtain ⟨_, t, ht, b, hf⟩ := hbody
      obtain ⟨b', hc⟩ := hall k d hd t ht
      rw [hf] at hc
      cases hc

/-- With at least one worker, and transfers that each deliver or fail: if all of
them deliver, the loop ends after exactly `⌈n / m⌉` rounds with each index
requested once, and gathering writes the pieces in order; a transfer that fails
ends the download with its exception and no output. -/
theorem download_schedule (hworkers : workers ≠ []) (hidle : ∀ w ∈ workers, w.thread = none)
    (hdel : ∀ k d, Heads ops (.start shuffled workers files out) k d →
      ∀ t ∈ d.transfers, Delivers ops c t) :
    ((∀ k d, Heads ops (.start shuffled workers files out) k d →
        ∀ t ∈ d.transfers, Completes ops t) →
      ∃ d s, Heads ops (.start shuffled workers files out)
          ((n + workers.length - 1) / workers.length) d ∧
        ¬ Running d ∧ d.store.requested.Perm (List.range n) ∧
        gatherPieces n d.store = .ok () s ∧ s.ostream = out ++ (List.range n).flatMap c) ∧
    ∀ k d, Heads ops (.start shuffled workers files out) k d →
      (∃ t ∈ d.transfers, ¬ Completes ops t) →
      ∃ e d', loopBody ops d = .error e d' ∧ d'.store.ostream = out ∧
        ∃ t ∈ d.transfers, FailsWith ops e t := by
  have hm : 0 < workers.length := List.length_pos_iff.mpr hworkers
  constructor
  · intro hall
    have hdiv := Nat.div_mul_le_self (n + workers.length - 1) workers.length
    have hlast : n ≤ (n + workers.length - 1) / workers.length * workers.length := by
      have := Nat.lt_div_mul_add hm (a := n + workers.length - 1)
      omega
    obtain ⟨d, hd⟩ := heads_of_completes ops hidle hdel hall
      ((n + workers.length - 1) / workers.length) (by omega)
    have hp := punctual_heads ops hidle hdel hd
    have hlen : shuffled.indexes.length = n := by
      rw [shuffled.perm.length_eq, List.length_range]
    have hmem : ∀ i, i < n → i ∈ d.store.written := by
      intro i hi
      rw [hp.written, List.take_of_length_le (by omega)]
      exact shuffled.mem_iff.mpr hi
    refine ⟨d, _, hd, ?_, ?_, gatherPieces_eq fun i hi => ?_, ?_⟩
    · exact not_not.mpr (hp.piecesToDownload.trans (List.drop_eq_nil_iff.mpr (by omega)))
    · rw [hp.requested, List.take_of_length_le (by omega)]
      exact shuffled.perm
    · rw [hp.files i (hmem i hi)]
      rfl
    · show d.store.ostream ++ _ = _
      rw [hp.ostream]
      refine congrArg (out ++ ·) (List.flatMap_congr fun i hi => ?_)
      rw [hp.files i (hmem i (List.mem_range.mp hi))]
      rfl
  · rintro k d hd ⟨t, ht, hfail⟩
    have hbody := (punctual_heads ops hidle hdel hd).loopBody ops (hdel k d hd)
    cases hb : loopBody ops d with
    | ok u d' =>
      rw [hb] at hbody
      exact absurd (hbody.1 t ht) hfail
    | error e d' =>
      rw [hb] at hbody
      exact ⟨e, d', rfl, hbody⟩

end

end

theorem download_schedule_instant :
    ((∀ k d, Heads instant (.start threePieces [.new 0, .new 0] (fun _ => none) []) k d →
        ∀ t ∈ d.transfers, Completes instant t) →
      ∃ d s, Heads instant (.start threePieces [.new 0, .new 0] (fun _ => none) []) 2 d ∧
        ¬ Running d ∧ d.store.requested.Perm [0, 1, 2] ∧
        gatherPieces 3 d.store = .ok () s ∧ s.ostream = [0, 1, 2]) ∧
    ∀ k d, Heads instant (.start threePieces [.new 0, .new 0] (fun _ => none) []) k d →
      (∃ t ∈ d.transfers, ¬ Completes instant t) →
      ∃ e d', loopBody instant d = .error e d' ∧ d'.store.ostream = [] ∧
        ∃ t ∈ d.transfers, FailsWith instant e t := by
  refine download_schedule instant (c := fun i => [UInt8.ofNat i]) (by simp) (by simp [Worker.new])
    fun k d _ t _ => ⟨?_, ?_⟩
  · intro b hb
    cases hb
    exact ⟨rfl, rfl⟩
  · intro e b he
    cases he

end Bittorrent.Client

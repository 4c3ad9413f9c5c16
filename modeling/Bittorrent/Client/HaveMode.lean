import Bittorrent.Client.Framing
import Bittorrent.Client.Integrity

/-! Have mode in the rounds of a download. A round goes on when a transfer throws
and leaves its worker in have mode, and the piece a worker reports need not be
the one it was given: `pop_piece` ends the download when a round reports a piece
twice, or one that is no longer on the list. -/

namespace Bittorrent.Client

open Lib Lib.Exec Misc Net Proto Torrent

/-- The indexes can be taken off the list one after the other. -/
def Fits (reports pieces : List Nat) : Prop := reports.Nodup ∧ ∀ i ∈ reports, i ∈ pieces

theorem fits_cons {i : Nat} {reports pieces : List Nat} (hn : pieces.Nodup) :
    Fits (i :: reports) pieces ↔ i ∈ pieces ∧ Fits reports (pieces.erase i) := by
  unfold Fits
  rw [List.nodup_cons, List.forall_mem_cons]
  constructor
  · intro h
    obtain ⟨⟨hi, hreports⟩, hmem, hall⟩ := h
    refine ⟨hmem, hreports, fun j hj => hn.mem_erase_iff.mpr ⟨?_, hall j hj⟩⟩
    rintro rfl
    exact hi hj
  · intro h
    obtain ⟨hmem, hreports, hall⟩ := h
    refine ⟨⟨fun hi => ?_, hreports⟩, hmem, fun j hj => List.mem_of_mem_erase (hall j hj)⟩
    exact (hn.mem_erase_iff.mp (hall i hi)).1 rfl

/-! ## Rounds that no transfer ends -/

section
variable {B : Type} (ops : PieceBody B)

/-- A transfer that returns, or throws and leaves its worker in have mode. -/
def Proceeds (t : Worker B × Nat) : Prop :=
  Completes ops t ∨ ∃ e b, ops.downloadPiece t.2 t.1.body = .error e b ∧ e.caught = true ∧
    ops.haveMode b = true

/-- The piece a transfer that returns is taken to have delivered. -/
def report (t : Worker B × Nat) : Option Nat :=
  match ops.downloadPiece t.2 t.1.body with
  | .ok _ b => some (ops.lastPieceIdx b)
  | .error _ _ => none

variable {ops}

theorem report_of_ok {t : Worker B × Nat} {b : B} (h : ops.downloadPiece t.2 t.1.body = .ok () b) :
    report ops t = some (ops.lastPieceIdx b) := by
  unfold report
  rw [h]

theorem report_of_error {t : Worker B × Nat} {e : Exception} {b : B}
    (h : ops.downloadPiece t.2 t.1.body = .error e b) : report ops t = none := by
  unfold report
  rw [h]

/-- What is left of a list from which the reports were taken, or the exception
when they do not fit. -/
def Reported (reports pieces : List Nat) : EStateM.Result Exception Store (List (Worker B)) → Prop
  | .ok _ s => Fits reports pieces ∧ s.piecesToDownload.length + reports.length = pieces.length
  | .error e _ => ¬ Fits reports pieces ∧ ∃ i, e = downloadedTwice i

theorem Reported.cons {reports pieces : List Nat} {x : Scheduler (List (Worker B))} {s : Store}
    (h : Reported reports pieces (x s)) (w : Worker B) :
    Reported reports pieces ((x >>= fun workers => pure (w :: workers)) s) := by
  cases hx : x s with
  | ok workers s' =>
    rw [bind_of_ok hx]
    rwa [hx] at h
  | error e s' =>
    rw [bind_of_error hx]
    rwa [hx] at h

/-- Taking one more piece off in front. -/
theorem Reported.erase {i : Nat} {reports pieces : List Nat}
    {r : EStateM.Result Exception Store (List (Worker B))}
    (h : Reported reports (pieces.erase i) r) (hn : pieces.Nodup) (hi : i ∈ pieces) :
    Reported (i :: reports) pieces r := by
  cases r with
  | ok workers s =>
    obtain ⟨hfits, hlen⟩ := h
    refine ⟨(fits_cons hn).mpr ⟨hi, hfits⟩, ?_⟩
    have := List.length_pos_of_mem hi
    rw [List.length_erase_of_mem hi] at hlen
    rw [List.length_cons]
    omega
  | error e s => exact ⟨fun hfits => h.1 ((fits_cons hn).mp hfits).2, h.2⟩

theorem awaitWorkers_reported (workers : List (Worker B)) : ∀ (pieces : List Nat) {s : Store},
    (∀ w ∈ workers, w.thread = none) → s.piecesToDownload.Nodup →
    (∀ t ∈ workers.zip pieces, Proceeds ops t) →
    Reported ((workers.zip pieces).filterMap (report ops)) s.piecesToDownload
      (awaitWorkers ops (assign workers pieces) s) := by
  induction workers with
  | nil => exact fun _ _ _ _ _ => ⟨⟨List.nodup_nil, nofun⟩, rfl⟩
  | cons w workers ih =>
    intro pieces s hidle hn hall
    cases pieces with
    | nil =>
      have hsame : assign (w :: workers) [] = w :: workers := rfl
      rw [hsame, awaitWorkers_idle ops hidle]
      exact ⟨⟨List.nodup_nil, nofun⟩, rfl⟩
    | cons i pieces =>
      have hidle' : ∀ w ∈ workers, w.thread = none := fun w hw => hidle w (by simp [hw])
      rw [List.zip_cons_cons, List.forall_mem_cons] at hall
      rw [List.zip_cons_cons, assign, awaitWorkers]
      rcases hall.1 with ⟨b, hx⟩ | ⟨e, b, hx, he, hm⟩
      · rw [List.filterMap_cons_some (report_of_ok hx)]
        have hawait := awaitWorker_of_ok ops s hx
        split at hawait
        · next hmem =>
          have hrest := ih pieces (s := s.settle (ops.lastPieceIdx b) (ops.piece b)) hidle'
            (hn.erase _) hall.2
          rw [bind_of_ok hawait]
          exact (hrest.cons _).erase hn hmem
        · next hmem =>
          rw [bind_of_error hawait]
          exact ⟨fun h => hmem (h.2 _ (List.mem_cons_self ..)), _, rfl⟩
      · rw [List.filterMap_cons_none (report_of_error hx)]
        have hawait := awaitWorker_of_error ops s hx he
        rw [if_pos hm] at hawait
        rw [bind_of_ok hawait]
        exact (ih pieces hidle' hn hall.2).cons _

/-- The pieces that the transfers of a round are taken to have delivered. -/
def Download.reports (ops : PieceBody B) (d : Download B) : List Nat :=
  d.transfers.filterMap (report ops)

/-- How a round ends: with the reports off the list, or with those that do not fit. -/
def RoundReported (ops : PieceBody B) (d : Download B) :
    EStateM.Result Exception (Download B) Unit → Prop
  | .ok _ d' => Fits (d.reports ops) d.store.piecesToDownload ∧
      d'.store.piecesToDownload.length + (d.reports ops).length = d.store.piecesToDownload.length
  | .error e _ => ¬ Fits (d.reports ops) d.store.piecesToDownload ∧ ∃ i, e = downloadedTwice i

theorem loopBody_reported {d : Download B} (hidle : ∀ w ∈ d.workers, w.thread = none)
    (hn : d.store.piecesToDownload.Nodup) (hall : ∀ t ∈ d.transfers, Proceeds ops t) :
    RoundReported ops d (loopBody ops d) := by
  have hawait := awaitWorkers_reported d.workers d.store.piecesToDownload
    (s := d.store.request d.workers.length) hidle hn hall
  rw [← round_idle ops hidle] at hawait
  cases hr : round ops d.workers d.store with
  | ok workers' s' =>
    rw [hr] at hawait
    rw [loopBody_of_ok ops hr]
    exact hawait
  | error e s' =>
    rw [hr] at hawait
    rw [loopBody_of_error ops hr]
    exact hawait

variable {n : Nat} {shuffled : Shuffled n} {workers : List (Worker B)}
  {files : Nat → Option Bytes} {out : Bytes}

/-- A round from a head of a run in which no transfer ends the download. -/
theorem heads_reported (hidle : ∀ w ∈ workers, w.thread = none) {k : Nat} {d : Download B}
    (h : Heads ops (.start shuffled workers files out) k d)
    (hall : ∀ t ∈ d.transfers, Proceeds ops t) : RoundReported ops d (loopBody ops d) :=
  loopBody_reported (idle_heads hidle h) (scheduled_iterates ops h).nodup hall

/-- When no transfer ends the download, it comes to its end with every piece
written if and only if every round reports pieces that are still on the list,
none of them twice, and not all rounds from some on report nothing. -/
theorem completes_iff (hidle : ∀ w ∈ workers, w.thread = none)
    (hall : ∀ k d, Heads ops (.start shuffled workers files out) k d → Running d →
      ∀ t ∈ d.transfers, Proceeds ops t) :
    ((∀ k d i d', Heads ops (.start shuffled workers files out) k d → Running d →
        loopBody ops d ≠ .error (downloadedTwice i) d') ∧
      ∃ k d, Heads ops (.start shuffled workers files out) k d ∧ ¬ Running d ∧
        d.store.written.Perm (List.range n)) ↔
    (∀ k d, Heads ops (.start shuffled workers files out) k d → Running d →
      Fits (d.reports ops) d.store.piecesToDownload) ∧
    ¬ ∃ K, ∀ k, K ≤ k → ∃ d, Heads ops (.start shuffled workers files out) k d ∧ Running d ∧
      d.reports ops = [] := by
  constructor
  · intro h
    obtain ⟨_, j, d₁, hj, hend, _⟩ := h
    constructor
    · intro k d hd hrun
      obtain ⟨d', hb⟩ := hj.next (hj.lt_of_running hend hd hrun) hd
      have hround := heads_reported hidle hd (hall k d hd hrun)
      rw [hb] at hround
      exact hround.1
    · intro h
      obtain ⟨K, hsilent⟩ := h
      obtain ⟨d, hd, hrun, _⟩ := hsilent (max K j) (Nat.le_max_left K j)
      exact absurd (hj.lt_of_running hend hd hrun) (Nat.not_lt.mpr (Nat.le_max_right K j))
  · intro h
    obtain ⟨hfits, hsilent⟩ := h
    have hbody : ∀ k d, Heads ops (.start shuffled workers files out) k d → Running d →
        ∃ d', loopBody ops d = .ok () d' := by
      intro k d hd hrun
      have hround := heads_reported hidle hd (hall k d hd hrun)
      cases hb : loopBody ops d with
      | ok u d' => exact ⟨d', rfl⟩
      | error e d' =>
        rw [hb] at hround
        exact absurd (hfits k d hd hrun) hround.1
    have hleft : ∀ k d d', Heads ops (.start shuffled workers files out) k d → Running d →
        loopBody ops d = .ok () d' →
        d'.store.piecesToDownload.length + (d.reports ops).length =
          d.store.piecesToDownload.length := by
      intro k d d' hd hrun hb
      have hround := heads_reported hidle hd (hall k d hd hrun)
      rw [hb] at hround
      exact hround.2
    refine ⟨fun k d i d' hd hrun hb => ?_, ?_⟩
    · obtain ⟨d'', hb'⟩ := hbody k d hd hrun
      rw [hb'] at hb
      cases hb
    rcases Iterates.ends_or_stalls (fun d => d.store.piecesToDownload.length) hbody
      (fun k d d' hd hrun hb => Nat.le.intro (hleft k d d' hd hrun hb)) with
      ⟨k, d, hd, hend⟩ | ⟨K, hstall⟩
    · have hs := scheduled_iterates ops hd
      exact ⟨k, d, hd, hend, hs.all_written (Decidable.not_not.mp hend)⟩
    · refine absurd ⟨K, fun k hk => ?_⟩ hsilent
      obtain ⟨d, d', hd, hrun, hb, hsame⟩ := hstall k hk
      have hlen := hleft k d d' hd hrun hb
      refine ⟨d, hd, hrun, List.length_eq_zero_iff.mp ?_⟩
      omega

end

/-! ## Transfers of a session -/

/-- What throws nothing but what a handler sees. -/
def RaisesCaught {α : Type} (x : Session α) : Prop :=
  Triple (fun _ => True) x (fun _ _ => True) (fun e _ => e.caught = true)

theorem raisesCaught_orThrow {E α : Type} {f : E → Exception} (hf : ∀ e, (f e).caught = true)
    (x : Except E α) : RaisesCaught (orThrow f x) := by
  cases x with
  | ok a => exact .pure a fun _ _ => trivial
  | error e => exact .throw _ fun _ _ => hf e

theorem raisesCaught_throwIf (c : Prop) [Decidable c] {e : Exception} (he : e.caught = true) :
    RaisesCaught (throwIf c e) :=
  .ite (fun _ => .throw e fun _ _ => he) fun _ => .pure () fun _ _ => trivial

theorem raisesCaught_read (site : Site) (length : Nat) : RaisesCaught (read site length) :=
  fun _ _ => trivial

theorem raisesCaught_headerOf (peer : String) (result : Except ErrorCode Bytes) :
    RaisesCaught (headerOf peer result) :=
  .bind (raisesCaught_orThrow (fun _ => rfl) _) fun _ => raisesCaught_orThrow (fun _ => rfl) _

theorem raisesCaught_haveOf (site : Site) (bodyLength : Nat) :
    RaisesCaught (haveOf site bodyLength) :=
  .bind (raisesCaught_read site bodyLength) fun _ =>
    .bind (raisesCaught_orThrow (fun _ => rfl) _) fun _ => raisesCaught_orThrow (fun _ => rfl) _

theorem raisesCaught_waitHave : RaisesCaught waitHave := by
  refine .bind (raisesCaught_read _ _) fun result => .ite (fun _ => .pure _ fun _ h => h) fun _ => ?_
  refine .bind (raisesCaught_headerOf _ _) fun response => .ite (fun _ => ?_) fun _ => ?_
  · exact .bind (raisesCaught_haveOf _ _) fun _ => .bind (R := fun _ _ => True)
      (.modify fun _ h => h) fun _ => .pure _ fun _ h => h
  · exact .bind (raisesCaught_throwIf _ rfl) fun _ => .pure _ fun _ h => h

/-- A worker in have mode without an announced piece, whose wait for one throws. -/
def FailsToWait (w : PieceWorker) : Prop :=
  w.havePieceIdx = none ∧ w.haveMode = true ∧
    ∃ e w', waitHave { w with buffer := [] } = .error e w'

instance (w : PieceWorker) : Decidable (FailsToWait w) :=
  decidable_of_iff (w.havePieceIdx = none ∧ w.haveMode = true ∧
    (match waitHave { w with buffer := [] } with
      | .ok _ _ => false
      | .error _ _ => true) = true) (by
      rw [FailsToWait]
      cases waitHave { w with buffer := [] } <;> simp)

theorem downloadPiece_of_waitHave {w w' : PieceWorker} {e : Exception}
    (hnone : w.havePieceIdx = none) (hmode : w.haveMode = true)
    (h : waitHave { w with buffer := [] } = .error e w') (sha1 : Bytes → Digest) (pieceIdx : Nat) :
    downloadPiece sha1 pieceIdx w = .error e w' := by
  have hstep : downloadPiece sha1 pieceIdx w =
      (if w.havePieceIdx.isSome then takeHavePieceIdx >>= fetchPiece sha1
      else if w.haveMode then waitHave >>= fun announced =>
        if announced then takeHavePieceIdx >>= fetchPiece sha1 else pure ()
      else fetchPiece sha1 pieceIdx) { w with buffer := [] } := rfl
  rw [hstep, if_neg (by simp [hnone]), if_pos hmode]
  exact bind_of_error h

theorem downloadPiece_of_failsToWait {w : PieceWorker} (h : FailsToWait w) (sha1 : Bytes → Digest)
    (pieceIdx : Nat) : ∃ e w', downloadPiece sha1 pieceIdx w = .error e w' ∧ e.caught = true ∧
      w'.haveMode = true := by
  obtain ⟨hnone, hmode, e, w', hwait⟩ := h
  have hkept : Kept (fun _ => True) fun w => w.haveMode = true :=
    ⟨fun _ _ _ _ h => h, fun _ _ h => h, fun _ _ h => h⟩
  have hcleared : ({ w with buffer := [] } : PieceWorker).haveMode = true := hmode
  exact ⟨e, w', downloadPiece_of_waitHave hnone hmode hwait sha1 pieceIdx,
    raisesCaught_waitHave.error trivial hwait,
    (hkept.keeps_waitHave trivial trivial).error hcleared hwait⟩

/-- The piece the transfer asks its peer for, or reports without having asked. -/
def reportOf (t : Worker PieceWorker × Nat) : Option Nat :=
  if FailsToWait t.1.body then none else some (pieceFor t.1.body t.2)

/-- The transfer returns, or its worker gets no piece to ask for. -/
def Obtains (sha1 : Bytes → Digest) (t : Worker PieceWorker × Nat) : Prop :=
  FailsToWait t.1.body ∨ Completes (pieceWorker sha1) t

instance (sha1 : Bytes → Digest) (t : Worker PieceWorker × Nat) : Decidable (Obtains sha1 t) :=
  inferInstanceAs (Decidable (_ ∨ _))

theorem Obtains.proceeds {sha1 : Bytes → Digest} {t : Worker PieceWorker × Nat}
    (h : Obtains sha1 t) (ho : t.1.body.ostream = none) :
    Proceeds (pieceWorker sha1) t ∧ report (pieceWorker sha1) t = reportOf t := by
  rcases h with h | ⟨b, hb⟩
  · obtain ⟨e, w', hx, he, hm⟩ := downloadPiece_of_failsToWait h sha1 t.2
    exact ⟨Or.inr ⟨e, w', hx, he, hm⟩, (report_of_error hx).trans (if_pos h).symm⟩
  · refine ⟨Or.inl ⟨b, hb⟩, (report_of_ok hb).trans ?_⟩
    rw [reportOf, if_neg, show (pieceWorker sha1).lastPieceIdx b = _ from (downloadPiece_ok hb ho).1]
    intro hfails
    obtain ⟨e, w', hx, _⟩ := downloadPiece_of_failsToWait hfails sha1 t.2
    have hboth := hx.symm.trans hb
    cases hboth

/-! ## Runs -/

def Download.reported (d : Download PieceWorker) : List Nat := d.transfers.filterMap reportOf

section
variable {sha1 : Bytes → Digest} {makeAddress : Bytes → Except Exception Unit}
  {metainfo : Metainfo} {peers : List (Bytes × Socket)} {n : Nat} {shuffled : Shuffled n}
  {files : Nat → Option Bytes} {out : Bytes} {d₀ : Download PieceWorker}

/-- In a run in which every piece that a peer is asked for arrives, no piece is
reported twice and every index gets written, if and only if each round reports
pieces that are still on the list, none of them twice, and not all rounds from
some on consist of vain attempts to wait. -/
theorem haveMode_completes_iff
    (hstart : DownloadFile.Reaches sha1 makeAddress metainfo peers shuffled files out 0 d₀)
    (hall : ∀ k d, DownloadFile.Reaches sha1 makeAddress metainfo peers shuffled files out k d →
      Running d → ∀ t ∈ d.transfers, Obtains sha1 t) :
    ((∀ k d i d', DownloadFile.Reaches sha1 makeAddress metainfo peers shuffled files out k d →
        Running d → loopBody (pieceWorker sha1) d ≠ .error (downloadedTwice i) d') ∧
      ∃ k d, DownloadFile.Reaches sha1 makeAddress metainfo peers shuffled files out k d ∧
        ¬ Running d ∧ d.store.written.Perm (List.range n)) ↔
    (∀ k d, DownloadFile.Reaches sha1 makeAddress metainfo peers shuffled files out k d →
      Running d → Fits d.reported d.store.piecesToDownload) ∧
    ¬ ∃ K, ∀ k, K ≤ k →
      ∃ d, DownloadFile.Reaches sha1 makeAddress metainfo peers shuffled files out k d ∧
        Running d ∧ d.reported = [] := by
  obtain ⟨workers, hsetup, hheads⟩ := reaches_iff_heads hstart
  simp only [hheads] at hall ⊢
  have hobtained : ∀ k d, Heads (pieceWorker sha1) (.start shuffled workers files out) k d →
      Running d → ∀ t ∈ d.transfers,
        Proceeds (pieceWorker sha1) t ∧ report (pieceWorker sha1) t = reportOf t := by
    intro k d hd hrun t ht
    exact (hall k d hd hrun t ht).proceeds (internal_heads hsetup hd _ (List.of_mem_zip ht).1)
  have hreports : ∀ k d, Heads (pieceWorker sha1) (.start shuffled workers files out) k d →
      Running d → d.reports (pieceWorker sha1) = d.reported :=
    fun k d hd hrun => List.filterMap_congr fun t ht => (hobtained k d hd hrun t ht).2
  rw [completes_iff (idle_of_setup hsetup) fun k d hd hrun t ht => (hobtained k d hd hrun t ht).1]
  refine and_congr (forall₂_congr fun k d => forall₂_congr fun hd hrun => ?_)
    (not_congr (exists_congr fun K => forall₂_congr fun k _ => exists_congr fun d => ?_))
  · rw [hreports k d hd hrun]
  · exact and_congr_right fun hd => and_congr_right fun hrun => by rw [hreports k d hd hrun]

end

/-! ## Downloads in have mode -/

/-- The first head of a download whose files and output are empty. -/
def firstHead (metainfo : Metainfo) (peers : List (Bytes × Socket)) {n : Nat}
    (shuffled : Shuffled n) : Except Exception (Download PieceWorker) := do
  let workers ← setupWorkers lengthDigest (fun _ => .ok ()) metainfo peers
  .ok (.start shuffled workers (fun _ => none) [])

theorem reaches_of_firstHead {metainfo : Metainfo} {peers : List (Bytes × Socket)}
    {pieces : List Bytes} {n : Nat} {shuffled : Shuffled n} {d : Download PieceWorker}
    (h : firstHead metainfo peers shuffled = .ok d) (hpieces : metainfo.pieces = .ok pieces)
    (hn : n = pieces.length) (hne : d.workers ≠ []) :
    DownloadFile.Reaches lengthDigest (fun _ => .ok ()) metainfo peers shuffled (fun _ => none) []
      0 d := by
  obtain ⟨workers, hw, h₁⟩ := except_bind_eq_ok.mp h
  cases h₁
  exact ⟨pieces, workers, hpieces, hn, hw, hne, .zero⟩

/-- When the loop is left in its first pass, or after it, the first head is the
only one to run from. -/
theorem eq_of_reaches {sha1 : Bytes → Digest} {makeAddress : Bytes → Except Exception Unit}
    {metainfo : Metainfo} {peers : List (Bytes × Socket)} {n : Nat} {shuffled : Shuffled n}
    {files : Nat → Option Bytes} {out : Bytes} {d₀ d : Download PieceWorker} {k : Nat}
    (h₀ : DownloadFile.Reaches sha1 makeAddress metainfo peers shuffled files out 0 d₀)
    (hlast : ∀ d', loopBody (pieceWorker sha1) d₀ = .ok () d' → ¬ Running d')
    (h : DownloadFile.Reaches sha1 makeAddress metainfo peers shuffled files out k d)
    (hrun : Running d) : d = d₀ := by
  obtain ⟨workers, _, hheads⟩ := reaches_iff_heads h₀
  rw [hheads] at h h₀
  cases h₀
  cases k with
  | zero =>
    cases h
    rfl
  | succ k =>
    obtain ⟨_, d', hb, h'⟩ := h.uncons
    cases k with
    | zero =>
      cases h'
      exact absurd hrun (hlast _ hb)
    | succ k => exact absurd h'.uncons.1 (hlast d' hb)

private theorem loneHead_announced :
    ((firstHead onePiece (lonePeer (sending (answers ++ [pieceMessage]))) loneShuffled).map fun d =>
      (d.workers.length, d.transfers.map fun t => decide (Obtains lengthDigest t),
        match loopBody (pieceWorker lengthDigest) d with
        | .ok _ d' => d'.store.piecesToDownload
        | .error _ _ => [])) = .ok (1, [true], []) := by decide +kernel

theorem haveMode_completes_iff_lone :
    ((∀ k d i d', DownloadFile.Reaches lengthDigest (fun _ => .ok ()) onePiece
        (lonePeer (sending (answers ++ [pieceMessage]))) loneShuffled (fun _ => none) [] k d →
        Running d → loopBody (pieceWorker lengthDigest) d ≠ .error (downloadedTwice i) d') ∧
      ∃ k d, DownloadFile.Reaches lengthDigest (fun _ => .ok ()) onePiece
        (lonePeer (sending (answers ++ [pieceMessage]))) loneShuffled (fun _ => none) [] k d ∧
        ¬ Running d ∧ d.store.written.Perm (List.range 1)) ↔
    (∀ k d, DownloadFile.Reaches lengthDigest (fun _ => .ok ()) onePiece
        (lonePeer (sending (answers ++ [pieceMessage]))) loneShuffled (fun _ => none) [] k d →
      Running d → Fits d.reported d.store.piecesToDownload) ∧
    ¬ ∃ K, ∀ k, K ≤ k → ∃ d, DownloadFile.Reaches lengthDigest (fun _ => .ok ()) onePiece
        (lonePeer (sending (answers ++ [pieceMessage]))) loneShuffled (fun _ => none) [] k d ∧
      Running d ∧ d.reported = [] := by
  obtain ⟨d₀, hd, h⟩ := except_map_eq_ok.mp loneHead_announced
  simp only [Prod.mk.injEq] at h
  obtain ⟨hlen, hobtain, hleft⟩ := h
  have hreach := reaches_of_firstHead hd rfl rfl (List.ne_nil_of_length_pos (by omega))
  have hlast : ∀ d', loopBody (pieceWorker lengthDigest) d₀ = .ok () d' → ¬ Running d' := by
    intro d' hb
    rw [hb] at hleft
    exact not_not.mpr hleft
  refine haveMode_completes_iff hreach fun k d hk hrun t ht => ?_
  obtain rfl := eq_of_reaches hreach hlast hk hrun
  have hmem := List.mem_map_of_mem (f := fun t => decide (Obtains lengthDigest t)) ht
  rw [hobtain] at hmem
  exact of_decide_eq_true (List.mem_singleton.mp hmem)

/-- A peer of that torrent that announces piece 0 and sends it. -/
def firstPieceSocket : Socket where
  isOpen := false
  incoming := 19 :: ascii "BitTorrent protocol" ++ List.replicate 8 0 ++ List.replicate 20 82 ++
    List.replicate 20 48 ++ encodeAll (answers ++ [pieceMessage])
  events _ := ⟨none, 1000, .eof⟩

def twoPeers : List (Bytes × Socket) :=
  [(ascii "127.0.0.1:6881", firstPieceSocket), (ascii "127.0.0.1:6882", firstPieceSocket)]

def twoShuffled : Shuffled 2 := ⟨[0, 1], by decide⟩

private theorem twoPeers_announced :
    ((firstHead twoPieces twoPeers twoShuffled).map fun d =>
      (d.workers.length, d.transfers.map fun t => (decide (Obtains lengthDigest t), reportOf t),
        match loopBody (pieceWorker lengthDigest) d with
        | .ok _ _ => none
        | .error e _ => some e)) =
    .ok (2, [(true, some 0), (true, some 0)], some (downloadedTwice 0)) := by decide +kernel

/-- Two peers that announce the same piece, and deliver it, end the download. -/
theorem haveMode_aborts :
    ¬ ∀ (sha1 : Bytes → Digest) (makeAddress : Bytes → Except Exception Unit)
      (torrentContent : Bytes) (metainfo : Metainfo) (peers : List (Bytes × Socket)) (n : Nat)
      (shuffled : Shuffled n) (files : Nat → Option Bytes) (out : Bytes) (d₀ : Download PieceWorker),
      fromFile torrentContent true = .value metainfo →
      DownloadFile.Reaches sha1 makeAddress metainfo peers shuffled files out 0 d₀ →
      (∀ k d, DownloadFile.Reaches sha1 makeAddress metainfo peers shuffled files out k d →
        Running d → ∀ t ∈ d.transfers, Obtains sha1 t ∧ ∀ i ∈ reportOf t, i < n) →
      (∀ k d i d', DownloadFile.Reaches sha1 makeAddress metainfo peers shuffled files out k d →
        Running d → loopBody (pieceWorker sha1) d ≠ .error (downloadedTwice i) d') ∧
      ∃ k d, DownloadFile.Reaches sha1 makeAddress metainfo peers shuffled files out k d ∧
        ¬ Running d ∧ d.store.written.Perm (List.range n) := by
  intro hall
  obtain ⟨d₀, hd, h⟩ := except_map_eq_ok.mp twoPeers_announced
  simp only [Prod.mk.injEq] at h
  obtain ⟨hlen, hobtain, hthrows⟩ := h
  have hreach := reaches_of_firstHead hd rfl rfl (List.ne_nil_of_length_pos (by omega))
  cases hb : loopBody (pieceWorker lengthDigest) d₀ with
  | ok u d' =>
    rw [hb] at hthrows
    cases hthrows
  | error e d' =>
    rw [hb] at hthrows
    obtain rfl := Option.some.inj hthrows
    have hlast : ∀ d', loopBody (pieceWorker lengthDigest) d₀ = .ok () d' → ¬ Running d' := by
      intro d' hb'
      rw [hb] at hb'
      cases hb'
    have hrun : Running d₀ := by
      intro hnil
      simp [Download.transfers, hnil] at hobtain
    refine (hall _ _ _ _ _ _ _ _ _ _ fromFile_twoPieces hreach
      fun k d hk hrun t ht => ?_).1 0 d₀ 0 d' hreach hrun hb
    obtain rfl := eq_of_reaches hreach hlast hk hrun
    have hmem := List.mem_map_of_mem
      (f := fun t => (decide (Obtains lengthDigest t), reportOf t)) ht
    rw [hobtain] at hmem
    obtain ⟨hobtains, hreport⟩ : decide (Obtains lengthDigest t) = true ∧ reportOf t = some 0 := by
      simpa using hmem
    refine ⟨of_decide_eq_true hobtains, fun i hi => ?_⟩
    rw [hreport] at hi
    cases hi
    decide

end Bittorrent.Client

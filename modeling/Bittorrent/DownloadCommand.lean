import Bittorrent.Client.Conversation
import Bittorrent.Client.DeadPeers
import Bittorrent.Published

/-! What `download` leaves in its output file. It is all or nothing
(`download_all_or_nothing`), and after a success the pieces of the file are those
that were brought for them, as long as no peer is in have mode
(`download_success`); nothing is said about the bytes. -/

namespace Bittorrent.Client

open Lib Lib.Exec Misc Net Proto Torrent

section
variable {sha1 : Bytes → Digest} {makeAddress : Bytes → Except Exception Unit} {metainfo : Metainfo}
  {peers : List (Bytes × Socket)} {n : Nat} {shuffled : Shuffled n} {files : Nat → Option Bytes}
  {out : Bytes} {store : Store}

/-- When the list of pieces is empty, all their files are there. -/
theorem Scheduled.gathers {s : Store} (h : Scheduled shuffled s) (hend : s.piecesToDownload = []) :
    gatherPieces n s = .ok () { s with
      ostream := s.ostream ++ (List.range n).flatMap fun i => (s.files i).getD [] } :=
  gatherPieces_eq fun i hi => h.files i <| by
    rw [h.written_iff, hend]
    exact ⟨hi, List.not_mem_nil⟩

/-- A transfer for piece `i` that returned with these bytes, all that came for
the piece and as many as it has. -/
def Brings (sha1 : Bytes → Digest) (metainfo : Metainfo) (t : Worker PieceWorker × Nat) (i : Nat)
    (content : Bytes) : Prop :=
  ∃ b es, downloadPiece sha1 t.2 t.1.body = .ok () b ∧ b.log = t.1.body.log ++ es ∧
    (∀ j, .completed j ∈ es ↔ j = i) ∧ content = blocksFor i es ∧
    ∃ len, pieceLen metainfo i = .ok len ∧ content.length = sizeT len

/-- A connected worker in normal mode. -/
structure Normal (metainfo : Metainfo) (w : PieceWorker) : Prop where
  metainfo : w.metainfo = metainfo
  mode : w.isPeerConnectionEstablished = true ∧ w.haveMode = false

theorem normal_downloadPiece (metainfo : Metainfo) (sha1 : Bytes → Digest) (pieceIdx : Nat) :
    Keeps (Normal metainfo) (downloadPiece sha1 pieceIdx) := by
  have hmeta := keeps_metainfo metainfo sha1 (.downloadPiece pieceIdx)
  have hmode := haveMode_downloadPiece sha1 false pieceIdx
  exact .intro (fun _ _ _ hw h => ⟨hmeta.ok hw.metainfo h, hmode.ok hw.mode h⟩)
    fun _ _ _ hw h => ⟨hmeta.error hw.metainfo h, hmode.error hw.mode h⟩

theorem normal_of_setup {workers : List (Worker PieceWorker)}
    (hsetup : setupWorkers sha1 makeAddress metainfo peers = .ok workers) {w : Worker PieceWorker}
    (hw : w ∈ workers) (hnormal : w.body.haveMode = false) : Normal metainfo w.body := by
  obtain ⟨peer, _, _, peerIp, peerPort, hc⟩ := setupWorkers_ok peers hsetup w hw
  have hmeta := keeps_metainfo metainfo sha1 .checkConnection
  exact ⟨hmeta.ok rfl hc, (connectToPeer_established sha1).ok rfl hc, hnormal⟩

/-- In normal mode a transfer that returns has brought the piece it reports. -/
theorem Normal.brings {t : Worker PieceWorker × Nat} {b : PieceWorker} (hw : Normal metainfo t.1.body)
    (ho : t.1.body.ostream = none) (h : downloadPiece sha1 t.2 t.1.body = .ok () b) :
    Brings sha1 metainfo t b.lastPieceIdx b.buffer := by
  rcases (downloadPiece_ok h ho).2 with ⟨_, htrue⟩ | ⟨hvain, _⟩
  · obtain ⟨es, hlog, hcompleted, hbuffer⟩ := htrue.events
    exact ⟨b, es, h, hlog, hcompleted, hbuffer, hw.metainfo ▸ htrue.length⟩
  · exact absurd (hw.mode.2.symm.trans hvain.2.1) Bool.false_ne_true

/-- A download in normal mode that returns has put the pieces that its transfers
brought one after the other. -/
theorem returns_brought
    (h : DownloadFile.Returns sha1 makeAddress metainfo peers shuffled files out store)
    (hnormal : ∀ workers, setupWorkers sha1 makeAddress metainfo peers = .ok workers →
      ∀ w ∈ workers, w.body.haveMode = false) :
    ∃ content : Nat → Bytes, store.ostream = out ++ (List.range n).flatMap content ∧
      ∀ i, i < n → ∃ k d t,
        DownloadFile.Reaches sha1 makeAddress metainfo peers shuffled files out k d ∧
        t ∈ d.transfers ∧ Brings sha1 metainfo t i (content i) := by
  obtain ⟨k, d, ⟨hashes, workers, hhashes, hn, hsetup, hne, hheads⟩, hend, hgather⟩ := h
  have hidle := idle_of_setup hsetup
  have hs := scheduled_iterates (pieceWorker sha1) hheads
  have hleft : d.store.piecesToDownload = [] := Decidable.not_not.mp hend
  have hwritten : ∀ i, i < n → i ∈ d.store.written := fun i hi => by
    rw [hs.written_iff, hleft]
    exact ⟨hi, List.not_mem_nil⟩
  rw [hs.gathers hleft] at hgather
  cases hgather
  have hout : d.store.ostream = out := (settles_heads hidle hheads).ostream
  -- a file holds what the transfer that reported its piece has left in the buffer
  have hfiles := (files_iff hidle hheads fun i content => ∃ k d t,
    DownloadFile.Reaches sha1 makeAddress metainfo peers shuffled files out k d ∧
      t ∈ d.transfers ∧ Brings sha1 metainfo t i content).mpr ?_
  · refine ⟨fun i => (d.store.files i).getD [], by rw [hout], fun i hi => ?_⟩
    obtain ⟨content, hcontent, hbrought⟩ := hfiles i (hwritten i hi)
    have hgot : (d.store.files i).getD [] = content := by rw [hcontent, Option.getD_some]
    dsimp only
    rw [hgot]
    exact hbrought
  · rintro t b ⟨j, d', _, hheads', ht⟩ hb
    have hstart : ∀ w ∈ workers, Normal metainfo w.body := fun w hw =>
      normal_of_setup hsetup hw (hnormal workers hsetup w hw)
    have hworkers := workers_heads hidle hstart ?_ hheads'
    · have ho := internal_heads hsetup hheads' _ (List.of_mem_zip ht).1
      exact ⟨j, d', t, ⟨hashes, workers, hhashes, hn, hsetup, hne, hheads'⟩, ht,
        ((hworkers _ (List.of_mem_zip ht).1).2).brings ho hb⟩
    · intro t w hw htransfer
      rcases htransfer.body with hok | ⟨e, herror, _⟩
      · exact (normal_downloadPiece metainfo sha1 t.2).ok hw hok
      · exact (normal_downloadPiece metainfo sha1 t.2).error hw herror

end

/-! ## The output stays closed to the rounds -/

/-- However it ends, the program writes nothing to the output. -/
abbrev Spares (out : Bytes) {α : Type} (x : Scheduler α) : Prop :=
  Triple (fun s => s.ostream = out) x (fun _ s => s.ostream = out) fun _ s => s.ostream = out

section
variable {B : Type} (ops : PieceBody B) {out : Bytes}

theorem spares_lift {α : Type} (x : Except Exception α) : Spares out (lift x) := by
  cases x with
  | ok a => exact .pure a fun _ hs => hs
  | error e => exact .throw e fun _ hs => hs

theorem spares_popPiece (idx : Nat) : Spares out (popPiece idx) := by
  refine .intro (fun s _ s' hs h => ?_) fun s e s' hs h => ?_
  · unfold popPiece at h
    split at h <;> cases h
    exact hs
  · unfold popPiece at h
    split at h <;> cases h
    exact hs

theorem spares_awaitWorker (w : Worker B) : Spares out (awaitWorker ops w) := by
  refine .ite (fun _ => .pure _ fun _ hs => hs) fun _ => ?_
  refine .bind (spares_lift _) fun (complete, w) => .ite (fun _ => ?_) fun _ => ?_
  · refine .bind (spares_popPiece _) fun _ => .bind ?_ fun _ => .pure _ fun _ hs => hs
    exact fun _ hs => hs
  · refine .ite (fun _ => .pure _ fun _ hs => hs) fun _ => ?_
    exact .bind (spares_lift _) fun _ => .pure _ fun _ hs => hs

theorem spares_startWorkers (workers : List (Worker B)) : Spares out (startWorkers workers) := by
  refine .reading fun store _ => .bind (spares_lift _) fun _ => ?_
  exact .bind (.modify fun _ hs => hs) fun _ => .pure _ fun _ hs => hs

theorem spares_awaitWorkers (workers : List (Worker B)) : Spares out (awaitWorkers ops workers) := by
  induction workers with
  | nil => exact .pure _ fun _ hs => hs
  | cons w workers ih =>
    exact .bind (spares_awaitWorker ops w) fun _ => .bind ih fun _ => .pure _ fun _ hs => hs

theorem spares_loopBody : Triple (fun d : Download B => d.store.ostream = out) (loopBody ops)
    (fun _ d => d.store.ostream = out) fun _ d => d.store.ostream = out := by
  intro d hd
  rw [loopBody]
  have hbody : Spares out (round ops d.workers) :=
    .bind (spares_startWorkers _) fun _ => spares_awaitWorkers ops _
  have h := hbody d.store hd
  cases hround : round ops d.workers d.store with
  | ok workers store =>
    rw [hround] at h
    exact h
  | error e store =>
    rw [hround] at h
    exact h

end

end Bittorrent.Client

namespace Bittorrent.Main

open Lib Lib.Exec Bencode Client Misc Net Torrent

theorem attempt_eq_ok {α : Type} {x : Except Exception α} {a : α} {t t' : Terminal} :
    attempt x t = .ok a t' ↔ x = .ok a ∧ t = t' := by
  cases x with
  | error e =>
    constructor
    · exact fun h => by cases h
    · exact fun h => by cases h.1
  | ok b =>
    rw [attempt_ok]
    simp

theorem onOutput_eq_ok {call : EStateM Exception Bytes Unit} {u : Unit} {t t' : Terminal}
    (h : onOutput call t = .ok u t') :
    ∃ ostream, call (t.outputFile.getD []) = .ok () ostream ∧
      t' = { t with outputFile := some ostream } := by
  rw [onOutput] at h
  cases hcall : call (t.outputFile.getD []) with
  | ok _ ostream =>
    rw [hcall] at h
    cases h
    exact ⟨ostream, rfl, rfl⟩
  | error e ostream =>
    rw [hcall] at h
    cases h

section
variable {Handle : Type} {world : World Handle} {rounds : Nat}

theorem downloadFile_eq_ok {m : Metainfo} {peers : List Bytes} {u : Unit} {t t' : Terminal}
    (h : downloadFile world rounds m peers t = .ok u t') :
    ∃ hashes store, m.pieces = .ok hashes ∧ world.createDirForPieces = .ok () ∧
      DownloadFile.Returns Misc.sha1 world.makeAddress m (connections world peers)
        (world.shuffle hashes.length) world.pieceFiles (t.outputFile.getD []) store ∧
      t' = ⟨t.stdout ++ downloadLines world, some store.ostream⟩ := by
  obtain ⟨hashes, t₁, h₁, h⟩ := bind_eq_ok.mp h
  obtain ⟨hhashes, rfl⟩ := attempt_eq_ok.mp h₁
  rw [bind_of_ok (println_ok _ _), bind_of_ok (print_ok _ _)] at h
  obtain ⟨workers, t₂, h₂, h⟩ := bind_eq_ok.mp h
  obtain ⟨hsetup, rfl⟩ := attempt_eq_ok.mp h₂
  cases hne : workers.isEmpty with
  | true =>
    simp only [hne] at h
    cases h
  | false =>
    simp only [hne, Bool.false_eq_true, if_false] at h
    obtain ⟨_, t₃, h₃, h⟩ := bind_eq_ok.mp h
    obtain ⟨hdir, rfl⟩ := attempt_eq_ok.mp h₃
    rw [bind_of_ok (println_ok _ _), bind_of_ok (print_ok _ _)] at h
    obtain ⟨ostream, hrun, rfl⟩ := onOutput_eq_ok h
    obtain ⟨k, d, store, hheads, hend, hgather, rfl⟩ := downloadPieces_ok hrun
    have hworkers : workers ≠ [] := by simpa using hne
    refine ⟨hashes, store, hhashes, hdir,
      ⟨k, d, ⟨hashes, workers, hhashes, rfl, hsetup, hworkers, hheads⟩, hend, hgather⟩, ?_⟩
    simp only [downloadLines, List.append_assoc]

/-- A download that does not come to its output file fails, and says why, or throws. -/
theorem downloadFileCommand_closed (rounds : Nat) {path out : Bytes}
    (h : ∀ m peers, ¬ Opens world path out m peers) :
    (∃ message, downloadFileCommand world rounds path out {} =
      .ok .fail { stdout := world.errorLine message }) ∨
    ∃ e, downloadFileCommand world rounds path out {} = .error e {} := by
  rw [downloadFileCommand]
  cases hpath : world.fileAt path with
  | none => exact .inl ⟨_, rfl⟩
  | some content =>
  cases hparent : world.parentMissing out with
  | true => exact .inl ⟨_, rfl⟩
  | false =>
  simp only [Bool.false_eq_true, if_false]
  cases hm : fromFile content true with
  | nullopt => exact .inl ⟨_, bind_of_ok (readMetainfo_none hm {})⟩
  | throws e => exact .inr ⟨e, bind_of_error (readMetainfo_throws hm {})⟩
  | value m =>
  rw [bind_of_ok (readMetainfo_ok hm {})]
  dsimp only
  cases hgot : getPeers world.api world.http Misc.sha1 m with
  | error e => exact .inr ⟨e, rfl⟩
  | ok peers =>
  rw [bind_of_ok (attempt_ok _ _)]
  cases hpeers : peers.isEmpty with
  | true => exact .inl ⟨_, rfl⟩
  | false =>
  cases hwritable : world.writable out with
  | false => exact .inl ⟨_, rfl⟩
  | true =>
    exact absurd ⟨⟨hparent, hwritable⟩, ⟨content, hpath, hm⟩, hgot, by simpa using hpeers⟩ (h m peers)

theorem downloadFileCommand_success {path out : Bytes} {t : Terminal}
    (h : downloadFileCommand world rounds path out {} = .ok .success t) :
    ∃ store, Succeeds world path out store ∧ t = downloaded world path out store := by
  by_cases hopens : ∃ m peers, Opens world path out m peers
  · obtain ⟨m, peers, hopens⟩ := hopens
    rw [hopens.command, intoOutput] at h
    obtain ⟨_, t₁, h₁, h⟩ := bind_eq_ok.mp h
    obtain ⟨hashes, store, hhashes, hdir, hreturns, rfl⟩ := downloadFile_eq_ok h₁
    rw [bind_of_ok (print_ok _ _)] at h
    cases h
    exact ⟨store, ⟨hdir, m, hashes, peers, hopens, hhashes, hreturns⟩, rfl⟩
  · rcases downloadFileCommand_closed rounds fun m peers hm => hopens ⟨m, peers, hm⟩ with
      ⟨_, hclosed⟩ | ⟨e, hclosed⟩
    · cases hclosed.symm.trans h
    · cases hclosed.symm.trans h

/-- Only `gather_pieces` writes to the output, and it finds all its files. -/
theorem downloadPieces_error {n : Nat} {shuffled : Shuffled n} {workers : List (Worker PieceWorker)}
    {out out' : Bytes} {e : Exception}
    (h : downloadPieces world rounds shuffled workers out = .error e out') : out' = out := by
  have hbody : Triple (fun d : Download PieceWorker => d.store.ostream = out)
      (loopBody (pieceWorker Misc.sha1)) (fun _ d => d.store.ostream = out)
      fun _ d => d.store.ostream = out := spares_loopBody _
  have hloop : Triple _ (whileLoop Running (loopBody (pieceWorker Misc.sha1)) .outOfFuel rounds) _ _ :=
    .whileLoop .outOfFuel hbody rounds
  unfold downloadPieces at h
  split at h
  · next hrun =>
    cases h
    exact hloop.error rfl hrun
  · next d hrun =>
    obtain ⟨k, _, hd, hend⟩ := whileLoop_ok hrun
    have hs := scheduled_iterates (pieceWorker Misc.sha1) hd
    -- the loop is over, so that gathering does not throw
    rw [hs.gathers (Decidable.not_not.mp hend)] at h
    cases h

theorem attempt_triple {α : Type} (x : Except Exception α) (I : Terminal → Prop) :
    Triple I (attempt x) (fun _ => I) fun _ => I := by
  cases x with
  | ok a => exact .pure a fun _ hs => hs
  | error e => exact .throw e fun _ hs => hs

/-- The output file of a download that throws is left as it was opened. -/
theorem downloadFile_error (m : Metainfo) (peers : List Bytes) :
    Triple (fun t => t.outputFile = some []) (downloadFile world rounds m peers) (fun _ _ => True)
      fun _ t => t.outputFile = some [] := by
  have hprint (text : Bytes) : Triple (fun t => t.outputFile = some []) (print text)
      (fun _ t => t.outputFile = some []) fun _ t => t.outputFile = some [] :=
    .modify fun _ ht => ht
  refine .bind (attempt_triple _ _) fun pieces => .bind (hprint _) fun _ => .bind (hprint _) fun _ => ?_
  refine .bind (attempt_triple _ _) fun workers => .ite (fun _ => .throw _ fun _ ht => ht) fun _ => ?_
  refine .bind (attempt_triple _ _) fun _ => .bind (hprint _) fun _ => .bind (hprint _) fun _ => ?_
  refine .intro (fun _ _ _ _ _ => trivial) fun t e t' ht h => ?_
  rw [onOutput, ht] at h
  simp only [Option.getD_some] at h
  cases hrun : downloadPieces world rounds (world.shuffle pieces.length) workers [] with
  | ok _ ostream =>
    rw [hrun] at h
    cases h
  | error _ ostream =>
    rw [hrun] at h
    cases h
    rw [downloadPieces_error hrun]

/-- `download` writes all or nothing: a run leaves no output file, or an empty one,
or has succeeded. The file is opened when the torrent is loaded and the tracker
has named a peer. -/
theorem download_all_or_nothing (world : World Handle) (rounds : Nat) (option out path : Bytes) :
    let t := final (commandLine world rounds [ascii "download", option, out, path]) {}
    (t.outputFile = none ↔ ¬ ∃ m peers, Opens world path out m peers) ∧
    (t.outputFile = none ∨ t.outputFile = some [] ∨ ∃ store, Succeeds world path out store ∧
      t.outputFile = some store.ostream ∧ ∃ stdout,
        main world rounds [ascii "download", option, out, path] =
          .exit .success ⟨stdout, some store.ostream⟩) := by
  rw [main, commandLine_download]
  by_cases hopens : ∃ m peers, Opens world path out m peers
  · obtain ⟨m, peers, hm⟩ := hopens
    rw [hm.command, intoOutput, final, hm.command, intoOutput]
    cases hrun : downloadFile world rounds m peers ⟨[], some []⟩ with
    | ok _ t =>
      obtain ⟨hashes, store, hhashes, hdir, hreturns, rfl⟩ := downloadFile_eq_ok hrun
      rw [bind_of_ok hrun, bind_of_ok (print_ok _ _)]
      refine ⟨iff_of_false (by simp [pure, EStateM.pure]) (not_not.mpr ⟨m, peers, hm⟩), .inr (.inr ?_)⟩
      exact ⟨store, ⟨hdir, m, hashes, peers, hm, hhashes, hreturns⟩, rfl, _, rfl⟩
    | error e t =>
      have ht : t.outputFile = some [] := (downloadFile_error m peers).error rfl hrun
      rw [bind_of_error hrun]
      exact ⟨iff_of_false (by simp [ht]) (not_not.mpr ⟨m, peers, hm⟩), .inr (.inl ht)⟩
  · have hnone : (final (downloadFileCommand world rounds path out) {}).outputFile = none := by
      rcases downloadFileCommand_closed rounds fun m peers hm => hopens ⟨m, peers, hm⟩ with
        ⟨_, h⟩ | ⟨e, h⟩
      · rw [final, h]
      · rw [final, h]
    exact ⟨iff_of_true hnone hopens, .inl hnone⟩

/-- Within some number of rounds the exit code is that of success exactly when
the download comes to its end. -/
theorem main_download_iff {path out option : Bytes} {t : Terminal} :
    (∃ rounds, main world rounds [ascii "download", option, out, path] = .exit .success t) ↔
      ∃ store, Succeeds world path out store ∧ t = downloaded world path out store := by
  constructor
  · rintro ⟨rounds, h⟩
    rw [main, commandLine_download] at h
    cases hrun : downloadFileCommand world rounds path out {} with
    | ok code t' =>
      rw [hrun] at h
      cases h
      exact downloadFileCommand_success hrun
    | error e t' =>
      rw [hrun] at h
      cases e <;> cases h
  · rintro ⟨store, hsucceeds, rfl⟩
    obtain ⟨enough, hmain⟩ := hsucceeds.main option
    exact ⟨enough, hmain enough (Nat.le_refl _)⟩

/-- No peer is in have mode when the connections are made. -/
def NormalMode (world : World Handle) (path : Bytes) : Prop :=
  ∀ content m peers workers, world.fileAt path = some content → fromFile content true = .value m →
    getPeers world.api world.http Misc.sha1 m = .ok peers →
    setupWorkers Misc.sha1 world.makeAddress m (connections world peers) = .ok workers →
    ∀ w ∈ workers, w.body.haveMode = false

/-- The peers of a published torrent are in normal mode. -/
theorem Published.normalMode {path file : Bytes} {size count : Nat}
    (h : Published world path file size count) : NormalMode world path := by
  obtain ⟨content, m, hashes, peers, hash, hpath, hm, _, _, hhash, hgot, _, hhonest⟩ := h.swarm
  intro content' m' peers' workers' hpath' hm' hgot' hsetup' w hw
  obtain rfl : content = content' := Option.some.inj (hpath.symm.trans hpath')
  obtain rfl : m = m' := Outcome.value.inj (hm.symm.trans hm')
  obtain rfl : peers = peers' := Except.ok.inj (hgot.symm.trans hgot')
  obtain ⟨workers, hsetup, _, hready⟩ := setupWorkers_honest hhash _ hhonest
  obtain rfl : workers = workers' := Except.ok.inj (hsetup.symm.trans hsetup')
  obtain ⟨j, hj, rfl⟩ := List.mem_iff_getElem.mp hw
  exact (hready j _ (List.getElem?_eq_getElem hj)).2.serving.haveMode

/-- When the exit code says that a download in normal mode succeeded, the output
file is made of as many pieces as the torrent lists, and each is what a transfer
of the run brought for it, in its length. -/
theorem download_success {path out option : Bytes} {t : Terminal}
    (h : main world rounds [ascii "download", option, out, path] = .exit .success t)
    (hnormal : NormalMode world path) :
    ∃ content m hashes peers, ∃ piece : Nat → Bytes, world.fileAt path = some content ∧
      fromFile content true = .value m ∧ m.pieces = .ok hashes ∧
      getPeers world.api world.http Misc.sha1 m = .ok peers ∧
      t.outputFile = some ((List.range hashes.length).flatMap piece) ∧
      ∀ i, i < hashes.length → ∃ k d transfer,
        DownloadFile.Reaches Misc.sha1 world.makeAddress m (connections world peers)
          (world.shuffle hashes.length) world.pieceFiles [] k d ∧
        transfer ∈ d.transfers ∧ Brings Misc.sha1 m transfer i (piece i) := by
  obtain ⟨store, hsucceeds, rfl⟩ := main_download_iff.mp ⟨rounds, h⟩
  obtain ⟨m, hashes, peers, ⟨_, ⟨content, hpath, hm⟩, hgot, _⟩, hhashes, hreturns⟩ := hsucceeds.returns
  obtain ⟨piece, hout, hbrought⟩ := returns_brought hreturns fun workers =>
    hnormal content m peers workers hpath hm hgot
  refine ⟨content, m, hashes, peers, piece, hpath, hm, hhashes, hgot, ?_, hbrought⟩
  rw [downloaded, hout, List.nil_append]

end

theorem download_success_lone : ∃ rounds t,
    main loneWorld rounds [ascii "download", ascii "-o", ascii "a", ascii "a.torrent"] =
      .exit .success t ∧
    ∃ content m hashes peers, ∃ piece : Nat → Bytes,
      loneWorld.fileAt (ascii "a.torrent") = some content ∧
      fromFile content true = .value m ∧ m.pieces = .ok hashes ∧
      getPeers loneWorld.api loneWorld.http Misc.sha1 m = .ok peers ∧
      t.outputFile = some ((List.range hashes.length).flatMap piece) ∧
      ∀ i, i < hashes.length → ∃ k d transfer,
        DownloadFile.Reaches Misc.sha1 loneWorld.makeAddress m (connections loneWorld peers)
          (loneWorld.shuffle hashes.length) loneWorld.pieceFiles [] k d ∧
        transfer ∈ d.transfers ∧ Brings Misc.sha1 m transfer i (piece i) := by
  obtain ⟨store, hsucceeds, _⟩ := @Published.succeeds _ _ _ (ascii "a") _ _ _ published_lone rfl rfl
  obtain ⟨rounds, h⟩ := main_download_iff.mpr ⟨store, hsucceeds, rfl⟩
  exact ⟨rounds, _, h, download_success h published_lone.normalMode⟩

end Bittorrent.Main

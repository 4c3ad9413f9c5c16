import Bittorrent.Client.HaveMode
import Bittorrent.Client.LiveWorkers
import Bittorrent.Client.PeerHandshake
import Bittorrent.Misc.Checksum

/-! A download whose peers are of no more use. Of a transfer that throws, the scheduler
rethrows the exception when the worker is in normal mode and goes on when it is
in have mode; the mode was settled when the connection was set up. So a round of
failures either ends the download or leaves pieces and modes as they were, and
the next round goes the same way. -/

namespace Bittorrent.Client

open Lib Lib.Exec Misc Net Proto Torrent

section
variable {B : Type} (ops : PieceBody B)

/-- The transfer throws and leaves its worker in the mode it was in. -/
def Fails (t : Worker B × Nat) : Prop :=
  ∃ e b, ops.downloadPiece t.2 t.1.body = .error e b ∧ e.caught = true ∧
    ops.haveMode b = ops.haveMode t.1.body

def modes (workers : List (Worker B)) : List Bool := workers.map fun w => ops.haveMode w.body

variable {ops}

/-- In have mode the scheduler passes over every failure. -/
theorem awaitWorkers_passes (workers : List (Worker B)) : ∀ (pieces : List Nat) {s : Store},
    (∀ w ∈ workers, w.thread = none) → (∀ t ∈ workers.zip pieces, Fails ops t) →
    (∀ t ∈ workers.zip pieces, ops.haveMode t.1.body = true) →
    ∃ workers', awaitWorkers ops (assign workers pieces) s = .ok workers' s ∧
      modes ops workers' = modes ops workers := by
  induction workers with
  | nil => exact fun _ _ _ _ _ => ⟨[], rfl, rfl⟩
  | cons w workers ih =>
    intro pieces s hidle hfail hmode
    cases pieces with
    | nil => exact ⟨w :: workers, awaitWorkers_idle ops hidle s, rfl⟩
    | cons i pieces =>
      rw [List.zip_cons_cons, List.forall_mem_cons] at hfail hmode
      obtain ⟨⟨e, b, hx, he, hsame⟩, hfail⟩ := hfail
      obtain ⟨workers', hrest, hmodes⟩ := ih pieces (s := s) (fun w hw => hidle w (by simp [hw]))
        hfail hmode.2
      have hawait := awaitWorker_of_error ops s hx he
      rw [if_pos (hsame.trans hmode.1)] at hawait
      refine ⟨w.failed e b :: workers', (bind_of_ok hawait).trans (bind_of_ok hrest), ?_⟩
      exact congrArg₂ List.cons hsame hmodes

/-- The first failure in normal mode ends the round. -/
theorem awaitWorkers_throws (workers : List (Worker B)) : ∀ (pieces : List Nat) {s : Store},
    (∀ t ∈ workers.zip pieces, Fails ops t) →
    (∃ t ∈ workers.zip pieces, ops.haveMode t.1.body = false) →
    ∃ e, awaitWorkers ops (assign workers pieces) s = .error e s := by
  induction workers with
  | nil =>
    intro pieces s _ hwaits
    obtain ⟨t, ht, _⟩ := hwaits
    cases ht
  | cons w workers ih =>
    intro pieces s hfail hnormal
    cases pieces with
    | nil =>
      obtain ⟨t, ht, _⟩ := hnormal
      cases ht
    | cons i pieces =>
      rw [List.zip_cons_cons, List.forall_mem_cons] at hfail
      obtain ⟨⟨e, b, hx, he, hsame⟩, hfail⟩ := hfail
      have hawait := awaitWorker_of_error ops s hx he
      cases hm : ops.haveMode w.body with
      | false =>
        rw [if_neg (by simp [hsame, hm])] at hawait
        exact ⟨e, bind_of_error hawait⟩
      | true =>
        rw [if_pos (hsame.trans hm)] at hawait
        obtain ⟨t, ht, hnormal⟩ := hnormal
        have htail : t ∈ workers.zip pieces := by
          rcases List.mem_cons.mp ht with rfl | ht
          · rw [hm] at hnormal
            cases hnormal
          · exact ht
        obtain ⟨e', hrest⟩ := ih pieces (s := s) hfail ⟨t, htail, hnormal⟩
        exact ⟨e', (bind_of_ok hawait).trans (bind_of_error hrest)⟩

variable {d : Download B}

theorem loopBody_passes (hidle : ∀ w ∈ d.workers, w.thread = none)
    (hfail : ∀ t ∈ d.transfers, Fails ops t)
    (hmode : ∀ t ∈ d.transfers, ops.haveMode t.1.body = true) :
    ∃ d', loopBody ops d = .ok () d' ∧ d'.store.piecesToDownload = d.store.piecesToDownload ∧
      modes ops d'.workers = modes ops d.workers := by
  obtain ⟨workers', hawait, hmodes⟩ := awaitWorkers_passes d.workers d.store.piecesToDownload
    (s := d.store.request d.workers.length) hidle hfail hmode
  exact ⟨_, loopBody_of_ok ops ((round_idle ops hidle).trans hawait), rfl, hmodes⟩

theorem loopBody_throws (hidle : ∀ w ∈ d.workers, w.thread = none)
    (hfail : ∀ t ∈ d.transfers, Fails ops t)
    (hnormal : ∃ t ∈ d.transfers, ops.haveMode t.1.body = false) :
    ∃ e d', loopBody ops d = .error e d' := by
  obtain ⟨e, hawait⟩ := awaitWorkers_throws d.workers d.store.piecesToDownload
    (s := d.store.request d.workers.length) hfail hnormal
  exact ⟨e, _, loopBody_of_error ops ((round_idle ops hidle).trans hawait)⟩

/-! ## Runs -/

variable {n k₀ : Nat} {shuffled : Shuffled n} {workers : List (Worker B)}
  {files : Nat → Option Bytes} {out : Bytes} {d₀ : Download B}

/-- The modes of the workers that a round starts follow from the modes of all. -/
theorem transfers_modes (d : Download B) : d.transfers.map (fun t => ops.haveMode t.1.body) =
    ((modes ops d.workers).zip d.store.piecesToDownload).map Prod.fst := by
  simp [Download.transfers, modes, List.zip_map_left, Function.comp_def]

/-- With all started workers in have mode the failures go on for ever. -/
theorem forever_of_haveMode (hidle : ∀ w ∈ workers, w.thread = none)
    (h₀ : Heads ops (.start shuffled workers files out) k₀ d₀) (hrun : Running d₀)
    (hfail : ∀ k d, k₀ ≤ k → Heads ops (.start shuffled workers files out) k d → Running d →
      ∀ t ∈ d.transfers, Fails ops t)
    (hmode : ∀ t ∈ d₀.transfers, ops.haveMode t.1.body = true) (k : Nat) :
    ∃ d, Heads ops (.start shuffled workers files out) k d ∧ Running d := by
  have hsame : ∀ j, ∃ d, Heads ops (.start shuffled workers files out) (k₀ + j) d ∧
      d.store.piecesToDownload = d₀.store.piecesToDownload ∧
      modes ops d.workers = modes ops d₀.workers := by
    intro j
    induction j with
    | zero => exact ⟨d₀, h₀, rfl, rfl⟩
    | succ j ih =>
      obtain ⟨d, hd, hpieces, hmodes⟩ := ih
      have hgoes : Running d := fun hnil => hrun (hpieces.symm.trans hnil)
      have hall : d.transfers.map (fun t => ops.haveMode t.1.body) =
          d₀.transfers.map fun t => ops.haveMode t.1.body := by
        rw [transfers_modes, transfers_modes, hpieces, hmodes]
      have hmode' : ∀ t ∈ d.transfers, ops.haveMode t.1.body = true := by
        intro t ht
        have hmem := List.mem_map_of_mem (f := fun t => ops.haveMode t.1.body) ht
        rw [hall] at hmem
        obtain ⟨t₀, ht₀, heq⟩ := List.mem_map.mp hmem
        exact heq.symm.trans (hmode t₀ ht₀)
      obtain ⟨d', hb, hpieces', hmodes'⟩ := loopBody_passes (idle_heads hidle hd)
        (hfail _ d (Nat.le_add_right k₀ j) hd hgoes) hmode'
      exact ⟨d', .succ hd hgoes hb, hpieces'.trans hpieces, hmodes'.trans hmodes⟩
  rcases Nat.lt_or_ge k k₀ with hk | hk
  · exact h₀.earlier hk
  · obtain ⟨d, hd, hpieces, _⟩ := hsame (k - k₀)
    rw [Nat.add_sub_cancel' hk] at hd
    exact ⟨d, hd, fun hnil => hrun (hpieces.symm.trans hnil)⟩

/-- A run in which from some round on every transfer fails throws, and has no
round after that, if and only if that round starts a worker in normal mode. -/
theorem ends_iff_normal (hidle : ∀ w ∈ workers, w.thread = none)
    (h₀ : Heads ops (.start shuffled workers files out) k₀ d₀) (hrun : Running d₀)
    (hfail : ∀ k d, k₀ ≤ k → Heads ops (.start shuffled workers files out) k d → Running d →
      ∀ t ∈ d.transfers, Fails ops t) :
    ((¬ ∀ k, ∃ d, Heads ops (.start shuffled workers files out) k d ∧ Running d) ∧
      ∃ k d e d', Heads ops (.start shuffled workers files out) k d ∧ Running d ∧
        loopBody ops d = .error e d') ↔
    ∃ t ∈ d₀.transfers, ops.haveMode t.1.body = false := by
  constructor
  · intro h
    obtain ⟨hends, _⟩ := h
    by_contra hnone
    refine hends (forever_of_haveMode hidle h₀ hrun hfail fun t ht => ?_)
    exact (Bool.eq_false_or_eq_true _).resolve_right fun hm => hnone ⟨t, ht, hm⟩
  · intro hnormal
    obtain ⟨e, d', hb⟩ := loopBody_throws (idle_heads hidle h₀)
      (hfail k₀ d₀ (Nat.le_refl _) h₀ hrun) hnormal
    refine ⟨fun hall => ?_, k₀, d₀, e, d', h₀, hrun, hb⟩
    obtain ⟨d, hd, _⟩ := hall (k₀ + 1)
    obtain ⟨d'', hb'⟩ := hd.next (Nat.lt_succ_self k₀) h₀
    rw [hb] at hb'
    cases hb'

end

/-! ## Sessions -/

/-- A transfer that ends with an exception. -/
def Throws (sha1 : Bytes → Digest) (t : Worker LiveWorker × Nat) : Prop :=
  ∃ e b, (liveWorker sha1).downloadPiece t.2 t.1.body = .error e b ∧ e.caught = true

/-- On an established connection a transfer keeps the mode of its worker. -/
theorem haveMode_downloadPiece (sha1 : Bytes → Digest) (mode : Bool) (pieceIdx : Nat) :
    Keeps (fun w => w.isPeerConnectionEstablished = true ∧ w.haveMode = mode)
      (downloadPiece sha1 pieceIdx) := by
  have hk : Kept (fun _ => True) fun w : PieceWorker =>
      w.isPeerConnectionEstablished = true ∧ w.haveMode = mode :=
    ⟨fun _ _ _ _ h => h, fun _ _ h => h, fun _ _ h => h⟩
  refine hk.keeps_downloadPiece ⟨fun _ h => h, fun w block h => ?_, fun _ _ h => h⟩
    (.reading fun w hw => ?_) pieceIdx
  · rw [PieceWorker.afterWrite_established, PieceWorker.afterWrite_haveMode]
    exact h
  · exact .ite (fun hn => absurd hw.1 (by simpa using hn)) fun _ => .pure _ fun _ h => h

theorem Throws.fails {sha1 : Bytes → Digest} {t : Worker LiveWorker × Nat} (h : Throws sha1 t)
    (hest : t.1.body.worker.isPeerConnectionEstablished = true) : Fails (liveWorker sha1) t := by
  obtain ⟨e, b, hx, he⟩ := h
  obtain ⟨v, hv, hbody⟩ := mapState_eq_error.mp hx
  have hstart : t.1.body.receive.worker.isPeerConnectionEstablished = true ∧
      t.1.body.receive.worker.haveMode = t.1.body.worker.haveMode := ⟨hest, rfl⟩
  have hmode := ((haveMode_downloadPiece sha1 _ t.2).error hstart hv).2
  exact ⟨e, b, hx, he, by rw [← hbody]; exact hmode⟩

section
variable {sha1 : Bytes → Digest} {makeAddress : Bytes → Except Exception Unit}
  {metainfo : Metainfo} {peers : List LivePeer} {n k₀ : Nat} {shuffled : Shuffled n}
  {files : Nat → Option Bytes} {out : Bytes} {d₀ : Download LiveWorker}

theorem established_heads {workers : List (Worker LiveWorker)} {k : Nat} {d : Download LiveWorker}
    (hsetup : setupLiveWorkers sha1 makeAddress metainfo peers = .ok workers)
    (h : Heads (liveWorker sha1) (.start shuffled workers files out) k d) :
    ∀ w ∈ d.workers, w.body.worker.isPeerConnectionEstablished = true := by
  refine keeps_liveHeads (I := fun w => w.worker.isPeerConnectionEstablished = true) hsetup
    (fun _ _ _ _ _ hc => ?_) (fun _ hw => hw) (fun i _ => established_downloadPiece sha1 i) h
  exact (connectToPeer_established sha1).ok rfl hc

/-- When from some round on every transfer ends with an exception, the download
ends with one if and only if that round starts a worker in normal mode. -/
theorem deadPeers_end_iff
    (h₀ : DownloadFile.ReachesLive sha1 makeAddress metainfo peers shuffled files out k₀ d₀)
    (hrun : Running d₀)
    (hdead : ∀ k d, k₀ ≤ k →
      DownloadFile.ReachesLive sha1 makeAddress metainfo peers shuffled files out k d → Running d →
      ∀ t ∈ d.transfers, Throws sha1 t) :
    ((¬ ∀ k, ∃ d, DownloadFile.ReachesLive sha1 makeAddress metainfo peers shuffled files out k d ∧
        Running d) ∧
      ∃ k d e d', DownloadFile.ReachesLive sha1 makeAddress metainfo peers shuffled files out k d ∧
        Running d ∧ loopBody (liveWorker sha1) d = .error e d') ↔
    ∃ t ∈ d₀.transfers, t.1.body.worker.haveMode = false := by
  obtain ⟨workers, hsetup, hheads⟩ := reachesLive_iff_heads h₀
  simp only [hheads] at h₀ hdead ⊢
  refine ends_iff_normal (idle_of_setupLive hsetup) h₀ hrun fun k d hk hd hgoes t ht => ?_
  exact (hdead k d hk hd hgoes t ht).fails (established_heads hsetup hd _ (List.of_mem_zip ht).1)

end

/-! ## A peer that keeps choking -/

/-- An operation that nothing holds up. -/
def promptly : IoEvent := ⟨none, 1000, .operationAborted⟩

/-- The info hash of the torrent of one piece. -/
def onePieceHash : Bytes :=
  [0x36, 0xB5, 0xED, 0x7E, 0x72, 0x32, 0x26, 0xCF, 0x07, 0xF3,
   0x25, 0xF3, 0x5A, 0x2F, 0xCC, 0x08, 0x6C, 0xEA, 0xA5, 0x39]

/-- A peer that announces piece 0 and then, once for each transfer, sends Choke. -/
def chokingPeer : LivePeer where
  peer := ascii "127.0.0.1:6881"
  socket := ⟨false, handshakeOf onePieceHash ++ encodeAll answers, fun _ => promptly⟩
  sends _ := packMsgHeader .choke 1

/-- A worker in have mode, with no announced piece and the next Choke to come. -/
structure Choked (w : LiveWorker) : Prop where
  haveMode : w.worker.haveMode = true
  havePieceIdx : w.worker.havePieceIdx = none
  isOpen : w.worker.socket.isOpen = true
  incoming : w.worker.socket.incoming = []
  events : ∀ n, w.worker.socket.events n = promptly
  sends : ∀ n, w.sends n = packMsgHeader .choke 1

theorem waitHave_of_other {w : PieceWorker} {got : Bytes} {response : MsgHeader}
    (hread : (w.socket.read MsgHeader.sizeInBytes).1 = .ok got)
    (hheader : unpackMsgHeader got = .ok response) (hhave : response.id ≠ .have)
    (hunchoke : response.id ≠ .unchoke) :
    waitHave w = .error (notReady "" response.id) (w.afterRead .waitHave MsgHeader.sizeInBytes) := by
  refine (bind_of_ok (read_eq _ _ w)).trans ?_
  rw [hread, if_neg (by simp)]
  have hresponse : ∀ v, headerOf "" (.ok got) v = .ok response v := by
    intro v
    refine (bind_of_ok (orThrow_of_ok _ got v)).trans ?_
    rw [hheader]
    rfl
  refine (bind_of_ok (hresponse _)).trans ?_
  rw [if_neg hhave]
  refine bind_of_error ?_
  rw [throwIf, if_pos hunchoke]
  rfl

theorem Choked.downloadPiece {w : LiveWorker} (h : Choked w) (sha1 : Bytes → Digest)
    (pieceIdx : Nat) : ∃ w',
    (liveWorker sha1).downloadPiece pieceIdx w = .error (notReady "" .choke) w' ∧ Choked w' := by
  have hincoming : w.receive.worker.socket.incoming = packMsgHeader .choke 1 ++ [] := by
    show w.worker.socket.incoming ++ w.sends 0 = _
    rw [h.incoming, h.sends, List.append_nil, List.nil_append]
  have hprompt : w.receive.worker.socket.Prompt := by
    refine ⟨h.isOpen, fun n => ?_, fun n => ?_⟩
    · exact congrArg IoEvent.writeError (h.events n)
    · rw [hincoming, show w.receive.worker.socket.events n = promptly from h.events n]
      decide
  obtain ⟨hread, hrest⟩ := hprompt.read_front hincoming
  have hwait := waitHave_of_other (w := { w.receive.worker with buffer := [] }) hread
    (show _ = Except.ok ⟨.choke, 0⟩ by decide) (by decide) (by decide)
  have hthrows := downloadPiece_of_waitHave (w := w.receive.worker) h.havePieceIdx h.haveMode hwait
    sha1 pieceIdx
  refine ⟨_, mapState_eq_error.mpr ⟨_, hthrows, rfl⟩, h.haveMode, h.havePieceIdx,
    (hprompt.read _).isOpen, hrest, fun n => ?_, fun n => h.sends (n + 1)⟩
  rcases w.receive.worker.socket.read_events MsgHeader.sizeInBytes with hevents | hevents
  · exact (congrFun hevents n).trans (h.events n)
  · exact (congrFun hevents n).trans (h.events (n + 1))

/-- The head after the first round. -/
def chokedHead : Except Exception (Download LiveWorker) := do
  let workers ← setupLiveWorkers Misc.sha1 (fun _ => .ok ()) onePiece [chokingPeer]
  match loopBody (liveWorker Misc.sha1) (.start loneShuffled workers (fun _ => none) []) with
  | .ok _ d => .ok d
  | .error e _ => .error e

private theorem chokedHead_ok : (chokedHead.map fun d =>
    (d.store.piecesToDownload, d.workers.map fun w => decide (w.body.worker.haveMode = true ∧
      w.body.worker.havePieceIdx = none ∧ w.body.worker.socket.isOpen = true ∧
      w.body.worker.socket.incoming = []))) = .ok ([0], [true]) := by decide +kernel

theorem reachesLive_of_chokedHead {d : Download LiveWorker} (h : chokedHead = .ok d)
    (hne : d.workers ≠ []) :
    DownloadFile.ReachesLive Misc.sha1 (fun _ => .ok ()) onePiece [chokingPeer] loneShuffled
      (fun _ => none) [] 1 d := by
  obtain ⟨workers, hw, h₁⟩ := except_bind_eq_ok.mp h
  cases hb : loopBody (liveWorker Misc.sha1)
      (.start loneShuffled workers (fun _ => none) []) with
  | error e d' =>
    rw [hb] at h₁
    cases h₁
  | ok u d' =>
    rw [hb] at h₁
    cases h₁
    refine ⟨_, workers, rfl, rfl, hw, ?_, .succ .zero (List.cons_ne_nil 0 []) hb⟩
    rintro rfl
    cases hb
    exact hne rfl

theorem promptly_kept : Kept (fun _ => True) fun w => ∀ n, w.socket.events n = promptly where
  read _ _ length _ h n := by
    rcases Socket.read_events _ length with hevents | hevents
    · exact (congrFun hevents n).trans (h n)
    · exact (congrFun hevents n).trans (h (n + 1))
  send _ _ h n := h (n + 1)
  havePieceIdx _ _ h := h

theorem promptly_connect : KeptByConnect fun w => ∀ n, w.socket.events n = promptly :=
  ⟨fun _ h n => h (n + 1), fun _ h => h, fun _ h => h⟩

theorem promptly_downloadPiece (sha1 : Bytes → Digest) (pieceIdx : Nat) :
    Keeps (fun w => ∀ n, w.socket.events n = promptly) (downloadPiece sha1 pieceIdx) := by
  refine promptly_kept.keeps_downloadPiece ⟨fun _ h => h, fun w block h n => ?_, fun _ _ h => h⟩
    (promptly_kept.keeps_ensureConnected promptly_connect (fun _ _ => trivial) sha1) pieceIdx
  rw [PieceWorker.afterWrite_socket]
  exact h n

/-- The connection never holds anything up, and there is always a Choke to come. -/
theorem choking_heads {sha1 : Bytes → Digest} {makeAddress : Bytes → Except Exception Unit}
    {metainfo : Metainfo} {n k : Nat} {shuffled : Shuffled n} {files : Nat → Option Bytes}
    {out : Bytes} {workers : List (Worker LiveWorker)} {d : Download LiveWorker}
    (hsetup : setupLiveWorkers sha1 makeAddress metainfo [chokingPeer] = .ok workers)
    (h : Heads (liveWorker sha1) (.start shuffled workers files out) k d) :
    ∀ w ∈ d.workers, (∀ n, w.body.worker.socket.events n = promptly) ∧
      ∀ n, w.body.sends n = packMsgHeader .choke 1 := by
  refine keeps_liveHeads (I := fun w => (∀ n, w.worker.socket.events n = promptly) ∧
    ∀ n, w.sends n = packMsgHeader .choke 1) hsetup (fun p hp _ _ _ hc => ?_)
    (fun w hw => ⟨hw.1, fun n => hw.2 (n + 1)⟩)
    (fun i sends => .intro (fun _ _ _ hw hx => ?_) fun _ _ _ hw hx => ?_) h
  · obtain rfl := List.mem_singleton.mp hp
    exact ⟨(promptly_kept.keeps_connectToPeer promptly_connect (fun _ _ => trivial) sha1).ok
      (fun _ => rfl) hc, fun _ => rfl⟩
  · exact ⟨(promptly_downloadPiece sha1 i).ok hw.1 hx, hw.2⟩
  · exact ⟨(promptly_downloadPiece sha1 i).error hw.1 hx, hw.2⟩

/-- From the first round on the one peer chokes every transfer. -/
private theorem choked_heads : ∃ d₁, DownloadFile.ReachesLive Misc.sha1 (fun _ => .ok ()) onePiece
      [chokingPeer] loneShuffled (fun _ => none) [] 1 d₁ ∧ Running d₁ ∧
    ∀ k d, 1 ≤ k → DownloadFile.ReachesLive Misc.sha1 (fun _ => .ok ()) onePiece [chokingPeer]
        loneShuffled (fun _ => none) [] k d →
      ∀ w ∈ d.workers, Choked w.body := by
  obtain ⟨d₁, hd, h⟩ := except_map_eq_ok.mp chokedHead_ok
  simp only [Prod.mk.injEq] at h
  obtain ⟨hpieces, hworkers⟩ := h
  have hne : d₁.workers ≠ [] := by
    intro hnil
    rw [hnil] at hworkers
    cases hworkers
  have hreach := reachesLive_of_chokedHead hd hne
  refine ⟨d₁, hreach, by simp [Running, hpieces], fun k d hk hd' => ?_⟩
  obtain ⟨workers, hsetup, hheads⟩ := reachesLive_iff_heads hreach
  rw [hheads] at hreach hd'
  refine workers_from (I := Choked) (idle_of_setupLive hsetup) hreach (fun w hw => ?_)
    (fun t w' hc hw' => ?_) hd' hk
  · have hmem := List.mem_map_of_mem (f := fun w : Worker LiveWorker =>
      decide (w.body.worker.haveMode = true ∧ w.body.worker.havePieceIdx = none ∧
        w.body.worker.socket.isOpen = true ∧ w.body.worker.socket.incoming = [])) hw
    rw [hworkers] at hmem
    obtain ⟨hmode, hnone, hopen, hincoming⟩ := of_decide_eq_true (List.mem_singleton.mp hmem)
    obtain ⟨hevents, hsends⟩ := choking_heads hsetup hreach w hw
    exact ⟨hmode, hnone, hopen, hincoming, hevents, hsends⟩
  · obtain ⟨b, hx, hchoked⟩ := hc.downloadPiece Misc.sha1 t.2
    rcases hw'.body with hends | ⟨e, hthrows, _⟩
    · cases hx.symm.trans hends
    · cases hx.symm.trans hthrows
      exact hchoked

private theorem Choked.throws {t : Worker LiveWorker × Nat} (h : Choked t.1.body) :
    Throws Misc.sha1 t := by
  obtain ⟨b, hx, _⟩ := h.downloadPiece Misc.sha1 t.2
  exact ⟨_, b, hx, rfl⟩

theorem deadPeers_end_iff_lone : ∃ d₁,
    DownloadFile.ReachesLive Misc.sha1 (fun _ => .ok ()) onePiece [chokingPeer] loneShuffled
      (fun _ => none) [] 1 d₁ ∧
    (((¬ ∀ k, ∃ d, DownloadFile.ReachesLive Misc.sha1 (fun _ => .ok ()) onePiece [chokingPeer]
          loneShuffled (fun _ => none) [] k d ∧ Running d) ∧
        ∃ k d e d', DownloadFile.ReachesLive Misc.sha1 (fun _ => .ok ()) onePiece [chokingPeer]
          loneShuffled (fun _ => none) [] k d ∧ Running d ∧
          loopBody (liveWorker Misc.sha1) d = .error e d') ↔
      ∃ t ∈ d₁.transfers, t.1.body.worker.haveMode = false) := by
  obtain ⟨d₁, hreach, hrun, hchoked⟩ := choked_heads
  refine ⟨d₁, hreach, deadPeers_end_iff hreach hrun fun k d hk hd _ t ht => ?_⟩
  exact (hchoked k d hk hd _ (List.of_mem_zip ht).1).throws

/-- The one peer of this download chokes every transfer, and the download never ends. -/
theorem deadPeers_run_forever :
    ¬ ∀ (makeAddress : Bytes → Except Exception Unit) (torrentContent : Bytes) (metainfo : Metainfo)
      (peers : List LivePeer) (n : Nat) (shuffled : Shuffled n) (files : Nat → Option Bytes)
      (out : Bytes) (k₀ : Nat) (d₀ : Download LiveWorker),
      fromFile torrentContent true = .value metainfo →
      DownloadFile.ReachesLive Misc.sha1 makeAddress metainfo peers shuffled files out k₀ d₀ →
      Running d₀ →
      (∀ k d, k₀ ≤ k →
        DownloadFile.ReachesLive Misc.sha1 makeAddress metainfo peers shuffled files out k d →
        Running d → ∀ t ∈ d.transfers, Throws Misc.sha1 t) →
      (¬ ∀ k, ∃ d, DownloadFile.ReachesLive Misc.sha1 makeAddress metainfo peers shuffled files out
        k d ∧ Running d) ∧
      ∃ k d e d', DownloadFile.ReachesLive Misc.sha1 makeAddress metainfo peers shuffled files out
        k d ∧ Running d ∧ loopBody (liveWorker Misc.sha1) d = .error e d' := by
  intro hall
  obtain ⟨d₁, hreach, hrun, hchoked⟩ := choked_heads
  have hdead := fun k d hk hd (_ : Running d) t (ht : t ∈ d.transfers) =>
    Choked.throws (hchoked k d hk hd _ (List.of_mem_zip ht).1)
  obtain ⟨hends, _⟩ := hall _ _ _ _ _ _ _ _ _ _ fromFile_onePiece hreach hrun hdead
  obtain ⟨workers, hsetup, hheads⟩ := reachesLive_iff_heads hreach
  refine hends fun k => ?_
  simp only [hheads] at hreach hdead ⊢
  refine forever_of_haveMode (idle_of_setupLive hsetup) hreach hrun (fun k d hk hd hgoes t ht => ?_)
    (fun t ht => ?_) k
  · exact (hdead k d hk hd hgoes t ht).fails (established_heads hsetup hd _ (List.of_mem_zip ht).1)
  · exact (hchoked 1 d₁ (Nat.le_refl 1) ((hheads _ _).mpr hreach) _ (List.of_mem_zip ht).1).haveMode

end Bittorrent.Client

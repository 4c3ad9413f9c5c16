import Bittorrent.Client.Transfer

/-! The thread of a worker. A worker's thread touches nothing but the worker,
so what it does is modelled where its owner waits for it. The scheduler sees a
worker only through `PieceBody`, and its results hold for every such body. -/

namespace Bittorrent.Client

open Lib.Exec Misc Net Proto Torrent

/-- What a thread runs and what its owner may look at afterwards. -/
structure PieceBody (B : Type) where
  downloadPiece : Nat → EStateM Exception B Unit
  connectToPeer : EStateM Exception B Unit
  isPeerConnectionEstablished : B → Bool
  haveMode : B → Bool
  lastPieceIdx : B → Nat
  piece : B → Bytes

def pieceWorker (sha1 : Bytes → Digest) : PieceBody PieceWorker where
  downloadPiece := downloadPiece sha1
  connectToPeer := connectToPeer sha1
  isPeerConnectionEstablished := PieceWorker.isPeerConnectionEstablished
  haveMode := PieceWorker.haveMode
  lastPieceIdx := PieceWorker.lastPieceIdx
  piece := PieceWorker.buffer

inductive Task where
  | downloadPiece (index : Nat)
  | checkConnection
  deriving DecidableEq

/-- `thread` is the task of a thread that can be joined. -/
structure Worker (B : Type) where
  body : B
  thread : Option Task
  exception : Option Exception
  isPieceTransferComplete : Bool

namespace Worker

variable {B : Type} (ops : PieceBody B)

def new (body : B) : Worker B := ⟨body, none, none, false⟩

def started (w : Worker B) : Bool := w.thread.isSome

def downloadPieceAsync (w : Worker B) (index : Nat) : Except Exception (Worker B) :=
  if w.started then .error (.runtimeError "Last started thread must be awaited.")
  else .ok { w with isPieceTransferComplete := false, thread := some (.downloadPiece index) }

def checkConnectionAsync (w : Worker B) : Except Exception (Worker B) :=
  if w.started then .error (.runtimeError "Last started thread must be awaited.")
  else .ok { w with thread := some .checkConnection }

/-- The task of the thread, from its start to its end. -/
def runTask (w : Worker B) (task : Task) : Except Exception (Worker B) :=
  let result := match task with
    | .downloadPiece index => ops.downloadPiece index w.body
    | .checkConnection => ops.connectToPeer w.body
  match result, task with
  | .ok _ body, .downloadPiece _ =>
    .ok { w with body := body, thread := none, isPieceTransferComplete := true }
  | .ok _ body, .checkConnection => .ok { w with body := body, thread := none }
  | .error e body, _ =>
    if e.caught then .ok { w with body := body, thread := none, exception := some e } else .error e

def join (w : Worker B) : Except Exception (Worker B) :=
  match w.thread with
  | none => .error (.runtimeError "Thread is not joinable")
  | some task => w.runTask ops task

def waitPieceTransfer (w : Worker B) : Except Exception (Bool × Worker B) := do
  let w ← w.join ops
  .ok (w.isPieceTransferComplete, w)

def waitConnectionEstablished (w : Worker B) : Except Exception (Bool × Worker B) := do
  let w ← w.join ops
  .ok (ops.isPeerConnectionEstablished w.body, w)

def raise (w : Worker B) : Except Exception Unit :=
  match w.exception with
  | some e => .error e
  | none => .error (.undefined "rethrow of a null exception")

end Worker

/-! ## Sequences of calls -/

inductive Call where
  | downloadPieceAsync (index : Nat)
  | waitPieceTransfer

/-- A call by an owner that goes on when the call throws. -/
def Call.perform {B : Type} (ops : PieceBody B) (w : Worker B) :
    Call → Except Exception (Worker B)
  | .downloadPieceAsync index =>
    match w.downloadPieceAsync index with
    | .ok w' => .ok w'
    | .error _ => .ok w
  | .waitPieceTransfer =>
    match w.waitPieceTransfer ops with
    | .ok (_, w') => .ok w'
    | .error e => if e.caught then .ok w else .error e

theorem internal_kept : Kept (fun _ => True) fun w => w.ostream = none :=
  ⟨fun _ _ _ _ h => h, fun _ _ h => h, fun _ _ h => h⟩

theorem internal_connect : KeptByConnect fun w => w.ostream = none :=
  ⟨fun _ h => h, fun _ h => h, fun _ h => h⟩

/-- Without an external stream a transfer never gets one. -/
theorem keeps_internal (sha1 : Bytes → Digest) (pieceIdx : Nat) :
    Keeps (fun w => w.ostream = none) (downloadPiece sha1 pieceIdx) := by
  refine internal_kept.keeps_downloadPiece ⟨fun _ h => h, fun w block h => ?_, fun _ _ h => h⟩
    (internal_kept.keeps_ensureConnected internal_connect (fun _ _ => trivial) sha1) pieceIdx
  rw [PieceWorker.afterWrite_internal block h]
  exact h

/-- A worker with the internal buffer that only runs transfers. -/
def Transferring (w : Worker PieceWorker) : Prop :=
  w.body.ostream = none ∧ w.thread ≠ some .checkConnection

/-- A joined transfer ended in one of two ways. -/
theorem join_transfer {sha1 : Bytes → Digest} {w w' : Worker PieceWorker} (hw : Transferring w)
    (h : w.join (pieceWorker sha1) = .ok w') : ∃ pieceIdx, w.thread = some (.downloadPiece pieceIdx) ∧
      w'.thread = none ∧
      (downloadPiece sha1 pieceIdx w.body = .ok () w'.body ∨
        ∃ e, downloadPiece sha1 pieceIdx w.body = .error e w'.body ∧
          w'.isPieceTransferComplete = w.isPieceTransferComplete) := by
  unfold Worker.join at h
  cases ht : w.thread with
  | none =>
    rw [ht] at h
    cases h
  | some task =>
    cases task with
    | checkConnection => exact absurd ht hw.2
    | downloadPiece pieceIdx =>
      rw [ht] at h
      refine ⟨pieceIdx, rfl, ?_⟩
      simp only [Worker.runTask, pieceWorker] at h
      cases hx : downloadPiece sha1 pieceIdx w.body with
      | ok u body =>
        rw [hx] at h
        cases h
        exact ⟨rfl, Or.inl rfl⟩
      | error e body =>
        rw [hx] at h
        dsimp only at h
        split at h
        · cases h
          exact ⟨rfl, Or.inr ⟨e, rfl, rfl⟩⟩
        · cases h

theorem Transferring.join {sha1 : Bytes → Digest} {w w' : Worker PieceWorker}
    (hw : Transferring w) (h : w.join (pieceWorker sha1) = .ok w') : Transferring w' := by
  obtain ⟨pieceIdx, _, hthread, hx | ⟨e, hx, _⟩⟩ := join_transfer hw h
  · exact ⟨(keeps_internal sha1 pieceIdx).ok hw.1 hx, by rw [hthread]; nofun⟩
  · exact ⟨(keeps_internal sha1 pieceIdx).error hw.1 hx, by rw [hthread]; nofun⟩

/-- The flag is down while a transfer is pending. -/
def Pending (w : Worker PieceWorker) : Prop :=
  Transferring w ∧ (w.started = true → w.isPieceTransferComplete = false)

theorem Pending.perform {sha1 : Bytes → Digest} {w w' : Worker PieceWorker} (hw : Pending w)
    {call : Call} (h : call.perform (pieceWorker sha1) w = .ok w') : Pending w' := by
  cases call with
  | downloadPieceAsync index =>
    unfold Call.perform Worker.downloadPieceAsync at h
    split_ifs at h with hs
    · cases h
      exact hw
    · cases h
      exact ⟨⟨hw.1.1, nofun⟩, fun _ => rfl⟩
  | waitPieceTransfer =>
    unfold Call.perform Worker.waitPieceTransfer at h
    cases hj : w.join (pieceWorker sha1) with
    | error e =>
      rw [hj] at h
      dsimp only [bind, Except.bind] at h
      split_ifs at h
      · cases h
        exact hw
    | ok joined =>
      rw [hj] at h
      cases h
      obtain ⟨_, _, hthread, _⟩ := join_transfer hw.1 hj
      refine ⟨hw.1.join hj, fun hs => ?_⟩
      rw [Worker.started, hthread] at hs
      cases hs

theorem Pending.performAll {sha1 : Bytes → Digest} (calls : List Call) :
    ∀ {w w' : Worker PieceWorker}, Pending w →
      calls.foldlM (Call.perform (pieceWorker sha1)) w = .ok w' → Pending w' := by
  induction calls with
  | nil =>
    intro w w' hw h
    cases h
    exact hw
  | cons call calls ih =>
    intro w w' hw h
    rw [List.foldlM_cons] at h
    obtain ⟨v, hp, hrest⟩ := except_bind_eq_ok.mp h
    exact ih (hw.perform hp) hrest

theorem pending_new (metainfo : Metainfo) (peerIp : String) (peerPort : Nat) (socket : Socket) :
    Pending (.new (.new metainfo peerIp peerPort socket)) :=
  ⟨⟨rfl, by simp [Worker.new]⟩, by simp [Worker.new, Worker.started]⟩

/-- A wait that reports success is the end of a transfer that returned. -/
theorem Pending.wait {sha1 : Bytes → Digest} {w w' : Worker PieceWorker} (hw : Pending w)
    (hwait : w.waitPieceTransfer (pieceWorker sha1) = .ok (true, w')) :
    ∃ pieceIdx, downloadPiece sha1 pieceIdx w.body = .ok () w'.body := by
  obtain ⟨joined, hj, h₁⟩ := except_bind_eq_ok.mp hwait
  obtain ⟨hflag, rfl⟩ := Prod.mk.inj (Except.ok.inj h₁)
  obtain ⟨pieceIdx, hthread, _, hx | ⟨e, _, hsame⟩⟩ := join_transfer hw.1 hj
  · exact ⟨pieceIdx, hx⟩
  · rw [hw.2 (by rw [Worker.started, hthread]; rfl), hflag] at hsame
    cases hsame

/-- In every sequence of calls, a wait that reports success tells the truth
about its transfer exactly when that transfer did not wait in vain. A worker is
the same when its transfer starts and when it is waited for. -/
theorem wait_truthful_iff (sha1 : Bytes → Digest) (metainfo : Metainfo) (peerIp : String)
    (peerPort : Nat) (socket : Socket) (calls : List Call) {w w' : Worker PieceWorker}
    (hrun : calls.foldlM (Call.perform (pieceWorker sha1))
      (.new (.new metainfo peerIp peerPort socket)) = .ok w)
    (hwait : w.waitPieceTransfer (pieceWorker sha1) = .ok (true, w')) :
    Truthful w.body w'.body ↔ ¬ WaitsInVain w.body := by
  have hw := Pending.performAll calls (pending_new metainfo peerIp peerPort socket) hrun
  obtain ⟨pieceIdx, hx⟩ := hw.wait hwait
  exact truthful_iff hx hw.1.1

/-! ## A session with one piece -/

/-- A peer that announces piece 0 and sends its one byte. -/
def onePieceStream (byte : UInt8) : Bytes :=
  19 :: ascii "BitTorrent protocol" ++ List.replicate 8 0 ++ List.replicate 20 62 ++
    List.replicate 20 48 ++ packUnchokeMsg ++ packHaveMsg 0 ++
    packMsgHeader .piece 10 ++ packU32 0 ++ packU32 0 ++ [byte]

/-- The first ten operations succeed at once, later ones time out. -/
def onePieceSocket (byte : UInt8) : Socket where
  isOpen := false
  incoming := onePieceStream byte
  events n := if n < 10 then ⟨none, 1000, .eof⟩ else .timeout

def onePieceWorker (byte : UInt8) : Worker PieceWorker :=
  .new (.new onePiece "127.0.0.1" 6881 (onePieceSocket byte))

/-- The state in which a wait after the calls starts, its result and its end. -/
private def waitAfter (calls : List Call) :
    Except Exception (Worker PieceWorker × Bool × Worker PieceWorker) := do
  let w ← calls.foldlM (Call.perform (pieceWorker lengthDigest)) (onePieceWorker 7)
  let (complete, w') ← w.waitPieceTransfer (pieceWorker lengthDigest)
  .ok (w, complete, w')

private theorem waitAfter_ok {calls : List Call} {w w' : Worker PieceWorker} {complete : Bool}
    (h : waitAfter calls = .ok (w, complete, w')) :
    calls.foldlM (Call.perform (pieceWorker lengthDigest)) (onePieceWorker 7) = .ok w ∧
      w.waitPieceTransfer (pieceWorker lengthDigest) = .ok (complete, w') := by
  obtain ⟨v, hrun, h₁⟩ := except_bind_eq_ok.mp h
  obtain ⟨r, hwait, h₂⟩ := except_bind_eq_ok.mp h₁
  cases h₂
  exact ⟨hrun, hwait⟩

private theorem waitAfter_first :
    (waitAfter [.downloadPieceAsync 0]).map (fun r => r.2.1) = .ok true := by decide +kernel

private theorem waitAfter_second :
    (waitAfter [.downloadPieceAsync 0, .waitPieceTransfer, .downloadPieceAsync 0]).map
      (fun r => (r.2.1, r.1.body.havePieceIdx, r.1.body.haveMode,
        (r.1.body.socket.read MsgHeader.sizeInBytes).1)) =
    .ok (true, none, true, .error .operationAborted) := by decide +kernel

theorem wait_truthful_iff_first : ∃ w w' : Worker PieceWorker,
    [Call.downloadPieceAsync 0].foldlM (Call.perform (pieceWorker lengthDigest))
      (onePieceWorker 7) = .ok w ∧
    w.waitPieceTransfer (pieceWorker lengthDigest) = .ok (true, w') ∧
    (Truthful w.body w'.body ↔ ¬ WaitsInVain w.body) := by
  obtain ⟨⟨w, complete, w'⟩, hr, h⟩ := except_map_eq_ok.mp waitAfter_first
  obtain rfl : complete = true := h
  obtain ⟨hrun, hwait⟩ := waitAfter_ok hr
  exact ⟨w, w', hrun, hwait, wait_truthful_iff _ _ _ _ _ _ hrun hwait⟩

/-- The second transfer of that session times out waiting for Have, and reports success. -/
theorem wait_reports_vain_transfer :
    ¬ ∀ (sha1 : Bytes → Digest) (metainfo : Metainfo) (peerIp : String) (peerPort : Nat)
      (socket : Socket) (calls : List Call) (w w' : Worker PieceWorker),
      calls.foldlM (Call.perform (pieceWorker sha1))
        (.new (.new metainfo peerIp peerPort socket)) = .ok w →
      w.waitPieceTransfer (pieceWorker sha1) = .ok (true, w') → Truthful w.body w'.body := by
  intro hall
  obtain ⟨⟨w, complete, w'⟩, hr, h⟩ := except_map_eq_ok.mp waitAfter_second
  simp only [Prod.mk.injEq] at h
  obtain ⟨rfl, hpiece, hmode, hread⟩ := h
  obtain ⟨hrun, hwait⟩ := waitAfter_ok hr
  have htrue := hall _ _ _ _ _ _ _ _ hrun hwait
  have hw := Pending.performAll _ (pending_new _ _ _ _) hrun
  obtain ⟨_, hx⟩ := hw.wait hwait
  exact (truthful_iff hx hw.1.1).mp htrue ⟨hpiece, hmode, by rw [hread]; rfl⟩

end Bittorrent.Client

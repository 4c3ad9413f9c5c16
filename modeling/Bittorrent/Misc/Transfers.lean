import Bittorrent.Misc.Handlers

/-! What a transfer returns, whatever the order of its handlers
(`transfer_exact`). The socket has one operation at a time, so what a transfer
has done is told by the stage it is at, which no timer handler can set back. -/

namespace Bittorrent.Net

open Lib.Runs TcpTransfer

/-! ## Stages -/

def Part.transferred : Part → Nat
  | .pending _ => 0
  | .completed _ bytesTransferred => bytesTransferred

theorem Part.transferred_start (size : Nat) : (Part.start size).transferred = 0 := by
  unfold Part.start
  split <;> rfl

/-- What is to be done: the request, the bytes the peer sends and how many of
them are to be read; and for the read what `_write_error` is by then and which
operations have ended. -/
structure Job where
  request : Bytes
  stream : Bytes
  length : Nat
  writeError : Option ErrorCode
  ended : List (Direction × Option ErrorCode)

/-- A `do_transfer`, whose read begins when the write has ended without error. -/
def Job.transfer (request stream : Bytes) (length : Nat) : Job :=
  ⟨request, stream, length, none, [(.write, none)]⟩

def Job.read (stream : Bytes) (length : Nat) : Job := ⟨[], stream, length, some .operationAborted, []⟩

/-- The fields that are set once. -/
structure Serves (job : Job) (t : TcpTransfer) : Prop where
  request : t.request = job.request
  length : t.expectedResponseLength = job.length
  buffer : t.buffer.length = job.length

structure Writing (job : Job) (t : TcpTransfer) (total : Nat) (part : Part) : Prop where
  serves : Serves job t
  isTransfer : job = .transfer job.request job.stream job.length
  operation : t.operation = some ⟨.write, total, part⟩
  sent : t.sent = job.request.take (total + part.transferred)
  remaining : t.remaining = job.stream
  ended : t.ended = []

/-- What holds from the start of the read on. -/
structure Written (job : Job) (t : TcpTransfer) : Prop where
  serves : Serves job t
  sent : t.sent = job.request
  writeError : t.writeError = job.writeError

structure Reading (job : Job) (t : TcpTransfer) (total : Nat) (part : Part) : Prop where
  written : Written job t
  operation : t.operation = some ⟨.read, total, part⟩
  stream : job.stream = t.buffer.take (total + part.transferred) ++ t.remaining
  ended : t.ended = job.ended

structure WriteFailed (job : Job) (t : TcpTransfer) (ec : ErrorCode) : Prop where
  isTransfer : job = .transfer job.request job.stream job.length
  operation : t.operation = none
  writeError : t.writeError = some ec
  sent : ∃ total, total < job.request.length ∧ t.sent = job.request.take total
  remaining : t.remaining = job.stream
  ended : t.ended = [(.write, some ec)]

structure ReadFailed (job : Job) (t : TcpTransfer) (ec : ErrorCode) : Prop where
  written : Written job t
  operation : t.operation = none
  readError : t.readError = some ec
  stream : ∃ got, got.length < job.length ∧ job.stream = got ++ t.remaining
  ended : t.ended = job.ended ++ [(.read, some ec)]

structure Done (job : Job) (t : TcpTransfer) : Prop where
  written : Written job t
  operation : t.operation = none
  readError : t.readError = none
  stream : job.stream = t.buffer ++ t.remaining
  ended : t.ended = job.ended ++ [(.read, none)]

inductive Stage (job : Job) (t : TcpTransfer) : Prop where
  | writing {total : Nat} {part : Part} (h : Writing job t total part)
  | reading {total : Nat} {part : Part} (h : Reading job t total part)
  | writeFailed {ec : ErrorCode} (h : WriteFailed job t ec)
  | readFailed {ec : ErrorCode} (h : ReadFailed job t ec)
  | done (h : Done job t)

variable {job : Job} {t t' : TcpTransfer}

/-- The operation tells whether the stage is a write or a read. -/
theorem Stage.of_write (h : Stage job t) {total : Nat} {part : Part}
    (hop : t.operation = some ⟨.write, total, part⟩) : Writing job t total part := by
  cases h with
  | writing h =>
    cases hop.symm.trans h.operation
    exact h
  | reading h => cases hop.symm.trans h.operation
  | writeFailed h => cases hop.symm.trans h.operation
  | readFailed h => cases hop.symm.trans h.operation
  | done h => cases hop.symm.trans h.operation

theorem Stage.of_read (h : Stage job t) {total : Nat} {part : Part}
    (hop : t.operation = some ⟨.read, total, part⟩) : Reading job t total part := by
  cases h with
  | writing h => cases hop.symm.trans h.operation
  | reading h =>
    cases hop.symm.trans h.operation
    exact h
  | writeFailed h => cases hop.symm.trans h.operation
  | readFailed h => cases hop.symm.trans h.operation
  | done h => cases hop.symm.trans h.operation

theorem Stage.of_none (h : Stage job t) (hop : t.operation = none) :
    (∃ ec, WriteFailed job t ec) ∨ (∃ ec, ReadFailed job t ec) ∨ Done job t := by
  cases h with
  | writing h => cases hop.symm.trans h.operation
  | reading h => cases hop.symm.trans h.operation
  | writeFailed h => exact .inl ⟨_, h⟩
  | readFailed h => exact .inr (.inl ⟨_, h⟩)
  | done h => exact .inr (.inr h)

/-- A read writes nothing. -/
theorem not_writeFailed_read {stream : Bytes} {length : Nat} (ec : ErrorCode) :
    ¬ WriteFailed (.read stream length) t ec := by
  intro hf
  cases congrArg Job.writeError hf.isTransfer

/-! ## What an action does to a stage -/

/-- The clock, the timers and who cancelled the socket are no part of a stage,
nor is how much of the stream has arrived. -/
theorem Stage.frame (h : Stage job t) (now : Nat) {arrivals : List Arrival} {available : Bytes}
    (hremaining : available ++ chunks arrivals = t.remaining) (readTimer writeTimer : Timer)
    (cancels : List Handler) :
    Stage job { t with
      now, arrivals, available, cancels
      readTimeoutTimer := readTimer
      writeTimeoutTimer := writeTimer } := by
  have written : Written job t → Written job { t with
      now, arrivals, available, cancels
      readTimeoutTimer := readTimer
      writeTimeoutTimer := writeTimer } := fun hw => { hw with serves := { hw.serves with } }
  cases h with
  | writing h =>
    exact .writing { h with serves := { h.serves with }, remaining := hremaining.trans h.remaining }
  | reading h =>
    exact .reading { h with
      written := written h.written
      stream := h.stream.trans (congrArg (_ ++ ·) hremaining.symm) }
  | writeFailed h => exact .writeFailed { h with remaining := hremaining.trans h.remaining }
  | readFailed h =>
    obtain ⟨got, hlt, hstream⟩ := h.stream
    exact .readFailed { h with
      written := written h.written
      stream := ⟨got, hlt, hstream.trans (congrArg (got ++ ·) hremaining.symm)⟩ }
  | done h =>
    exact .done { h with
      written := written h.written
      stream := h.stream.trans (congrArg (t.buffer ++ ·) hremaining.symm) }

theorem Stage.setTimer (h : Stage job t) (direction : Direction) (timer : Timer) :
    Stage job (t.setTimer direction timer) := by
  cases direction with
  | write => exact h.frame t.now rfl t.readTimeoutTimer timer t.cancels
  | read => exact h.frame t.now rfl timer t.writeTimeoutTimer t.cancels

/-- A pending part ends with an error. -/
theorem Stage.abort (h : Stage job t) {direction : Direction} {total maxSize : Nat}
    (hop : t.operation = some ⟨direction, total, .pending maxSize⟩) (ec : ErrorCode) :
    Stage job { t with operation := some ⟨direction, total, .completed (some ec) 0⟩ } := by
  cases direction with
  | write =>
    have h := h.of_write hop
    exact .writing { h with serves := { h.serves with }, operation := rfl }
  | read =>
    have h := h.of_read hop
    exact .reading { h with
      written := { h.written with serves := { h.written.serves with } }
      operation := rfl }

theorem Stage.cancelSocket (h : Stage job t) (caller : Handler) : Stage job (t.cancelSocket caller) := by
  have hcancels := h.frame t.now rfl t.readTimeoutTimer t.writeTimeoutTimer (t.cancels ++ [caller])
  rcases t.cancelSocket_eq caller with heq | ⟨direction, total, maxSize, hop, heq⟩
  · rw [heq]
    exact hcancels
  · rw [heq]
    exact hcancels.abort hop .operationAborted

theorem take_patch {buffer got : Bytes} {total n : Nat} (hgot : got.length = n)
    (hfit : total + n ≤ buffer.length) :
    (buffer.take total ++ got ++ buffer.drop (total + n)).take (total + n) =
      buffer.take total ++ got := by
  refine List.take_left' ?_
  rw [List.length_append, List.length_take_of_le (by omega), hgot]

theorem length_patch {buffer got : Bytes} {total n : Nat} (hgot : got.length = n)
    (hfit : total + n ≤ buffer.length) :
    (buffer.take total ++ got ++ buffer.drop (total + n)).length = buffer.length := by
  rw [List.length_append, List.length_append, List.length_take_of_le (by omega), hgot,
    List.length_drop]
  omega

/-- What is received goes from the front of the stream to behind what was read. -/
theorem Reading.receive {total maxSize n : Nat} (h : Reading job t total (.pending maxSize))
    (hfit : total + n ≤ t.buffer.length) (havailable : n ≤ t.available.length) :
    Reading job { t with
      operation := some ⟨.read, total, .completed none n⟩
      available := t.available.drop n
      buffer := t.buffer.take total ++ t.available.take n ++ t.buffer.drop (total + n) }
      total (.completed none n) := by
  have hgot : (t.available.take n).length = n := List.length_take_of_le havailable
  have hstream : job.stream = t.buffer.take total ++ t.remaining := h.stream
  refine { h with
    written := { h.written with serves := { h.written.serves with buffer := ?_ } }
    operation := rfl
    stream := ?_ }
  · exact (length_patch hgot hfit).trans h.written.serves.buffer
  · show job.stream = (t.buffer.take total ++ t.available.take n ++
      t.buffer.drop (total + n)).take (total + n) ++ (t.available.drop n ++ chunks t.arrivals)
    rw [take_patch hgot hfit, hstream, List.append_assoc, ← List.append_assoc (t.available.take n),
      List.take_append_drop]
    rfl

/-- The read begins when the whole request is written. -/
theorem Writing.done {total n : Nat} (h : Writing job t total (.completed none n))
    (hall : total + n = t.request.length) (readTimer writeTimer : Timer) :
    Reading job { t with
      operation := some ⟨.read, 0, .start t.expectedResponseLength⟩
      readTimeoutTimer := readTimer
      writeTimeoutTimer := writeTimer
      writeError := none
      readError := none
      ended := t.ended ++ [(.write, none)] } 0 (.start t.expectedResponseLength) := by
  have hwriteError : job.writeError = none := congrArg Job.writeError h.isTransfer
  have hended : job.ended = [(.write, none)] := congrArg Job.ended h.isTransfer
  rw [h.serves.request] at hall
  refine {
    written := {
      serves := { h.serves with }
      sent := h.sent.trans (List.take_of_length_le (Nat.le_of_eq hall.symm))
      writeError := hwriteError.symm }
    operation := rfl
    stream := ?_
    ended := (congrArg (· ++ [(Direction.write, none)]) h.ended).trans hended.symm }
  rw [Part.transferred_start]
  exact h.remaining.symm

theorem Stage.step {action : Action} (h : Stage job t) (hfits : t.Fits) (hs : Steps t action t') :
    Stage job t' := by
  cases hs with
  | tick duration => exact h.frame _ rfl t.readTimeoutTimer t.writeTimeoutTimer t.cancels
  | @arrive arrival arrivals harrivals htime =>
    refine h.frame t.now ?_ t.readTimeoutTimer t.writeTimeoutTimer t.cancels
    simp [TcpTransfer.remaining, harrivals, chunks]
  | @send total maxSize n hop hpos hle =>
    have h := h.of_write hop
    have hsent : t.sent = job.request.take total := h.sent
    refine .writing { h with serves := { h.serves with }, operation := rfl, sent := ?_ }
    show t.sent ++ (t.request.drop total).take n = job.request.take (total + n)
    rw [hsent, h.serves.request, List.take_add]
  | @receive total maxSize n hop hpos hle havailable =>
    have h := h.of_read hop
    have hfit : total + n ≤ t.buffer.length := by
      obtain ⟨hmax, _⟩ := hfits.pending_pos hop
      rw [h.written.serves.buffer, ← h.written.serves.length]
      dsimp only [size] at hmax
      omega
    exact .reading (h.receive hfit havailable)
  | fail ec hop => exact h.abort hop ec
  | expire hdue => exact h.setTimer _ _
  | @writeMore total n hop hn hlt =>
    have h := h.of_write hop
    refine .writing { h with serves := { h.serves with }, operation := rfl, sent := ?_ }
    rw [Part.transferred_start]
    exact h.sent
  | writeDone hop hall => exact .reading ((h.of_write hop).done hall _ _)
  | @writeFailed total n ec hop hlt =>
    have h := h.of_write hop
    rw [h.serves.request] at hlt
    exact .writeFailed {
      isTransfer := h.isTransfer
      operation := rfl
      writeError := rfl
      sent := ⟨total + n, hlt, h.sent⟩
      remaining := h.remaining
      ended := congrArg (· ++ [(Direction.write, some ec)]) h.ended }
  | @readMore total n hop hn hlt =>
    have h := h.of_read hop
    refine .reading { h with
      written := { h.written with serves := { h.written.serves with } }
      operation := rfl
      stream := ?_ }
    rw [Part.transferred_start]
    exact h.stream
  | @readDone total n hop hall =>
    have h := h.of_read hop
    have hfull : t.buffer.take (total + n) = t.buffer :=
      List.take_of_length_le (Nat.le_of_eq (h.written.serves.buffer.trans
        (h.written.serves.length.symm.trans hall.symm)))
    exact .done {
      written := { h.written with serves := { h.written.serves with } }
      operation := rfl
      readError := rfl
      stream := h.stream.trans (congrArg (· ++ t.remaining) hfull)
      ended := congrArg (· ++ [(Direction.read, none)]) h.ended }
  | @readFailed total n ec hop hlt =>
    have h := h.of_read hop
    rw [h.written.serves.length] at hlt
    exact .readFailed {
      written := { h.written with serves := { h.written.serves with } }
      operation := rfl
      readError := rfl
      stream := ⟨_, Nat.lt_of_le_of_lt (List.length_take_le _ _) hlt, h.stream⟩
      ended := congrArg (· ++ [(Direction.read, some ec)]) h.ended }
  | timeout hqueued => exact (h.setTimer _ _).cancelSocket _
  | reset hqueued => exact h.setTimer _ _

/-! ## Waits and work -/

/-- A timer is waited for only while its operation is under way. -/
def Waits (t : TcpTransfer) : Prop :=
  ∀ direction, t.operation.map Operation.direction ≠ some direction → (t.timer direction).waiting = 0

theorem Waits.other (h : Waits t) {direction : Direction} {total : Nat} {part : Part}
    (hop : t.operation = some ⟨direction, total, part⟩) (other : Direction) (hne : direction ≠ other) :
    (t.timer other).waiting = 0 := by
  refine h other fun he => hne ?_
  rw [hop] at he
  exact Option.some.inj he

theorem Waits.of_none (h : Waits t) (hop : t.operation = none) (direction : Direction) :
    (t.timer direction).waiting = 0 := by
  refine h direction fun he => ?_
  rw [hop] at he
  cases he

theorem waits_of_none (hread : t.readTimeoutTimer.waiting = 0)
    (hwrite : t.writeTimeoutTimer.waiting = 0) : Waits t := by
  intro direction _
  cases direction with
  | write => exact hwrite
  | read => exact hread

theorem Waits.cancelSocket (h : Waits t) (caller : Handler) : Waits (t.cancelSocket caller) := by
  rcases t.cancelSocket_eq caller with heq | ⟨direction, total, maxSize, hop, heq⟩
  · rw [heq]
    exact h
  · rw [heq]
    unfold Waits at h
    rw [hop] at h
    exact h

theorem Waits.setTimer (h : Waits t) {direction : Direction} {timer : Timer}
    (hwait : (t.timer direction).waiting = 0 → timer.waiting = 0) :
    Waits (t.setTimer direction timer) := by
  intro other hne
  cases direction with
  | write =>
    cases other with
    | write => exact hwait (h .write hne)
    | read => exact h .read hne
  | read =>
    cases other with
    | write => exact h .write hne
    | read => exact hwait (h .read hne)

/-- The operation goes on, and no timer is touched. -/
theorem Waits.goes_on (h : Waits t) {direction : Direction} {total total' : Nat} {part part' : Part}
    (hop : t.operation = some ⟨direction, total, part⟩)
    (hop' : t'.operation = some ⟨direction, total', part'⟩)
    (htimer : ∀ direction, t'.timer direction = t.timer direction) : Waits t' := by
  intro other hne
  rw [hop'] at hne
  rw [htimer]
  exact h.other hop other fun he => hne (congrArg some he)

theorem Waits.step {action : Action} (h : Waits t) (hs : Steps t action t') : Waits t' := by
  cases hs with
  | tick duration => exact h
  | arrive harrivals htime => exact h
  | send hop hpos hle => exact h.goes_on hop rfl fun _ => by rfl
  | receive hop hpos hle havailable => exact h.goes_on hop rfl fun _ => by rfl
  | fail ec hop => exact h.goes_on hop rfl fun _ => by rfl
  | expire hdue => exact h.setTimer fun _ => rfl
  | writeMore hop hn hlt => exact h.goes_on hop rfl fun _ => by rfl
  | writeDone hop hall =>
    intro direction hne
    cases direction with
    | write => rfl
    | read => exact absurd rfl hne
  | writeFailed hop hlt => exact waits_of_none (h.other hop .read nofun) rfl
  | readMore hop hn hlt =>
    intro direction hne
    cases direction with
    | write => exact h.other hop .write nofun
    | read => exact absurd rfl hne
  | readDone hop hall => exact waits_of_none rfl (h.other hop .write nofun)
  | readFailed hop hlt => exact waits_of_none rfl (h.other hop .write nofun)
  | timeout hqueued =>
    refine Waits.cancelSocket (h.setTimer ?_) _
    exact id
  | reset hqueued => exact h.setTimer id

/-- What every run of a job comes to. -/
structure Reached (job : Job) (t : TcpTransfer) : Prop where
  fits : t.Fits
  waits : Waits t
  stage : Stage job t

theorem Reached.step {action : Action} (h : Reached job t) (hs : step action t = some t') :
    Reached job t' := by
  have hs := steps_of_step h.fits hs
  exact ⟨hs.fits h.fits, h.waits.step hs, h.stage.step h.fits hs⟩

/-- What each step keeps of a reached state, each run keeps. -/
theorem Reached.keeps {I : TcpTransfer → Prop} {actions : List Action} (hr : Reached job t)
    (hstep : ∀ action t t', Reached job t → I t → Steps t action t' → I t') (hI : I t)
    (hrun : run TcpTransfer.step actions t = some t') : I t' := by
  have hboth : ∀ action t t', (Reached job t ∧ I t) → TcpTransfer.step action t = some t' →
      Reached job t' ∧ I t' :=
    fun _ _ _ h hs => ⟨h.1.step hs, hstep _ _ _ h.1 h.2 (steps_of_step h.1.fits hs)⟩
  exact (run_invariant hboth ⟨hr, hI⟩ hrun).2

theorem Reached.run {actions : List Action} (h : Reached job t)
    (hrun : run TcpTransfer.step actions t = some t') : Reached job t' :=
  run_invariant (fun _ _ _ h hs => h.step hs) h hrun

/-! ## Where a run begins -/

theorem resize_length (buffer : Bytes) (size : Nat) : (resize buffer size).length = size := by
  rw [resize, List.length_append, List.length_take, List.length_replicate]
  omega

section
variable (now : Nat) (isOpen : Bool) (arrivals : List Arrival) (readTimeout : Nat)

theorem reached_prepareTransfer (request : Bytes) (length : Nat) :
    Reached (.transfer request (chunks arrivals) length)
      ((new now isOpen arrivals readTimeout).prepareTransfer request length) where
  fits := fits_prepareTransfer _ _ _
  waits := by
    intro direction hne
    cases direction with
    | write => exact absurd rfl hne
    | read => rfl
  stage := by
    refine .writing {
      serves := ⟨rfl, rfl, resize_length _ _⟩
      isTransfer := rfl
      operation := rfl
      sent := ?_
      remaining := rfl
      ended := rfl }
    rw [Part.transferred_start]
    rfl

theorem reached_prepareRead (length : Nat) :
    Reached (.read (chunks arrivals) length)
      ((new now isOpen arrivals readTimeout).prepareRead length) where
  fits := fits_prepareRead _ _
  waits := by
    intro direction hne
    cases direction with
    | write => rfl
    | read => exact absurd rfl hne
  stage := by
    refine .reading {
      written := {
        serves := ⟨rfl, rfl, resize_length _ _⟩
        sent := rfl
        writeError := rfl }
      operation := rfl
      stream := ?_
      ended := rfl }
    rw [Part.transferred_start]
    rfl

end

/-! ## Work that is left -/

/-- A step that takes no time. -/
def busyStep (action : Action) (t : TcpTransfer) : Option TcpTransfer :=
  match action with
  | .tick _ => none
  | action => TcpTransfer.step action t

theorem step_of_busyStep {action : Action} (h : busyStep action t = some t') :
    TcpTransfer.step action t = some t' ∧ ∀ duration, action ≠ .tick duration := by
  cases action with
  | tick duration => cases h
  | _ => exact ⟨h, fun _ he => by cases he⟩

def Timer.work (timer : Timer) : Nat := 2 * timer.waiting + timer.expired + timer.aborted

def Part.work : Part → Nat
  | .pending _ => 1
  | .completed _ _ => 0

/-- A part that has transferred something leaves less to do, whatever it makes
the timers wait for. -/
def operationWork (t : TcpTransfer) : Option Operation → Nat
  | none => 0
  | some ⟨.write, total, part⟩ =>
    2 * (t.request.length - total) + part.work + (4 * t.expectedResponseLength + 10)
  | some ⟨.read, total, part⟩ => 4 * (t.expectedResponseLength - total) + part.work + 4

def work (t : TcpTransfer) : Nat :=
  t.readTimeoutTimer.work + t.writeTimeoutTimer.work + operationWork t t.operation +
    t.arrivals.length

theorem Timer.work_cancel (timer : Timer) : timer.cancel.work ≤ timer.work := by
  simp only [Timer.work, Timer.cancel]
  omega

theorem Part.work_pending (maxSize : Nat) : (Part.pending maxSize).work = 1 := rfl

theorem Part.work_completed (ec : Option ErrorCode) (n : Nat) : (Part.completed ec n).work = 0 := rfl

theorem Part.work_start_le (size : Nat) : (Part.start size).work ≤ 1 := by
  unfold Part.start
  split
  · exact Nat.zero_le 1
  · exact Nat.le_refl 1

theorem work_cancelSocket_le (t : TcpTransfer) (caller : Handler) :
    work (t.cancelSocket caller) ≤ work t := by
  rcases t.cancelSocket_eq caller with heq | ⟨direction, total, maxSize, hop, heq⟩
  · rw [heq]
    exact Nat.le_refl _
  · rw [heq]
    unfold work
    rw [hop]
    cases direction <;> simp only [operationWork, Part.work_pending, Part.work_completed] <;> omega

theorem work_setTimer_lt {direction : Direction} {timer : Timer}
    (hlt : timer.work < (t.timer direction).work) : work (t.setTimer direction timer) < work t := by
  cases direction with
  | write =>
    have hlt : timer.work < t.writeTimeoutTimer.work := hlt
    show t.readTimeoutTimer.work + timer.work + operationWork t t.operation + t.arrivals.length < _
    unfold work
    omega
  | read =>
    have hlt : timer.work < t.readTimeoutTimer.work := hlt
    show timer.work + t.writeTimeoutTimer.work + operationWork t t.operation + t.arrivals.length < _
    unfold work
    omega

theorem TcpTransfer.Steps.work_lt {action : Action} (hs : Steps t action t')
    (hbusy : ∀ duration, action ≠ .tick duration) : work t' < work t := by
  cases hs with
  | tick duration => exact absurd rfl (hbusy duration)
  | arrive harrivals htime =>
    simp only [work, harrivals, List.length_cons]
    exact Nat.lt_succ_self _
  | send hop hpos hle =>
    simp only [work, hop, operationWork, Part.work_pending, Part.work_completed]
    omega
  | receive hop hpos hle havailable =>
    simp only [work, hop, operationWork, Part.work_pending, Part.work_completed]
    omega
  | @fail direction total maxSize ec hop =>
    simp only [work, hop]
    cases direction <;> simp only [operationWork, Part.work_pending, Part.work_completed] <;> omega
  | expire hdue =>
    refine work_setTimer_lt ?_
    have := hdue.2
    simp only [Timer.work, Timer.expire]
    omega
  | @writeMore total n hop hn hlt =>
    have hpart := Part.work_start_le (min defaultMaxTransferSize (t.request.length - (total + n)))
    simp only [work, hop, operationWork, Part.work_completed]
    omega
  | @writeDone total n hop hall =>
    have hpart := Part.work_start_le t.expectedResponseLength
    have hcancel := Timer.work_cancel t.writeTimeoutTimer
    simp only [work, hop, operationWork, Part.work_completed, Timer.work, Timer.asyncWait, Timer.cancel] at *
    omega
  | writeFailed hop hlt =>
    have hcancel := Timer.work_cancel t.writeTimeoutTimer
    simp only [work, hop, operationWork, Part.work_completed]
    omega
  | @readMore total n hop hn hlt =>
    have hpart := Part.work_start_le (t.expectedResponseLength - (total + n))
    simp only [work, hop, operationWork, Part.work_completed, Timer.work, Timer.asyncWait, Timer.cancel] at *
    omega
  | readDone hop hall =>
    have hcancel := Timer.work_cancel t.readTimeoutTimer
    simp only [work, hop, operationWork, Part.work_completed]
    omega
  | readFailed hop hlt =>
    have hcancel := Timer.work_cancel t.readTimeoutTimer
    have hcancel' := Timer.work_cancel t.readTimeoutTimer.cancel
    simp only [work, hop, operationWork, Part.work_completed]
    omega
  | timeout hqueued =>
    refine Nat.lt_of_le_of_lt (work_cancelSocket_le _ _) (work_setTimer_lt ?_)
    simp only [Timer.work]
    omega
  | reset hqueued =>
    refine work_setTimer_lt ?_
    simp only [Timer.work]
    omega

theorem TcpTransfer.Steps.now_eq {action : Action} (hs : Steps t action t')
    (hbusy : ∀ duration, action ≠ .tick duration) : t'.now = t.now := by
  cases hs with
  | tick duration => exact absurd rfl (hbusy duration)
  | @expire direction hdue => cases direction <;> rfl
  | @timeout direction hqueued =>
    rw [cancelSocket_now]
    cases direction <;> rfl
  | @reset direction hqueued => cases direction <;> rfl
  | _ => rfl

/-- What has ended stays recorded. -/
theorem TcpTransfer.Steps.ended_prefix {action : Action} (hs : Steps t action t') :
    t.ended <+: t'.ended := by
  cases hs with
  | @expire direction hdue => cases direction <;> exact List.prefix_rfl
  | @timeout direction hqueued =>
    rw [cancelSocket_ended]
    cases direction <;> exact List.prefix_rfl
  | @reset direction hqueued => cases direction <;> exact List.prefix_rfl
  | writeDone hop hall => exact List.prefix_append _ _
  | writeFailed hop hlt => exact List.prefix_append _ _
  | readDone hop hall => exact List.prefix_append _ _
  | readFailed hop hlt => exact List.prefix_append _ _
  | _ => exact List.prefix_rfl

/-! ## When all is transferred -/

/-- The request is written, and this many bytes of the stream are read. -/
structure Settled (request stream : Bytes) (length : Nat) (t : TcpTransfer) : Prop where
  sent : t.sent = request
  enough : length ≤ stream.length
  remaining : t.remaining = stream.drop length

theorem Settled.not_pending (h : Settled job.request job.stream job.length t) (hr : Reached job t)
    {direction : Direction} {total maxSize : Nat} :
    t.operation ≠ some ⟨direction, total, .pending maxSize⟩ := by
  intro hop
  obtain ⟨hmax, hpos⟩ := hr.fits.pending_pos hop
  cases direction with
  | write =>
    have hw := hr.stage.of_write hop
    have hsent : job.request.take total = job.request := hw.sent.symm.trans h.sent
    have hlen := List.length_take_le total job.request
    dsimp only [size] at hmax
    rw [hsent, ← hw.serves.request] at hlen
    omega
  | read =>
    have hd := hr.stage.of_read hop
    have hstream : job.stream = t.buffer.take total ++ t.remaining := hd.stream
    have hlen := congrArg List.length hstream
    have htake := List.length_take_le total t.buffer
    dsimp only [size] at hmax
    rw [List.length_append, h.remaining, List.length_drop] at hlen
    have := hd.written.serves.length
    have := h.enough
    omega

theorem Settled.cancelSocket {request stream : Bytes} {length : Nat}
    (h : Settled request stream length t) (caller : Handler) :
    Settled request stream length (t.cancelSocket caller) := by
  rcases t.cancelSocket_eq caller with heq | ⟨_, _, _, _, heq⟩
  · rw [heq]
    exact { h with }
  · rw [heq]
    exact { h with }

theorem Settled.setTimer {request stream : Bytes} {length : Nat}
    (h : Settled request stream length t) (direction : Direction) (timer : Timer) :
    Settled request stream length (t.setTimer direction timer) := by
  cases direction <;> exact { h with }

theorem Settled.step {action : Action} (h : Settled job.request job.stream job.length t)
    (hr : Reached job t) (hs : Steps t action t') :
    Settled job.request job.stream job.length t' := by
  cases hs with
  | tick duration => exact { h with }
  | @arrive arrival arrivals harrivals htime =>
    refine { h with remaining := .trans ?_ h.remaining }
    simp [TcpTransfer.remaining, harrivals, chunks]
  | send hop hpos hle => exact absurd hop (h.not_pending hr)
  | receive hop hpos hle havailable => exact absurd hop (h.not_pending hr)
  | fail ec hop => exact absurd hop (h.not_pending hr)
  | expire hdue => exact h.setTimer _ _
  | writeMore hop hn hlt => exact { h with }
  | writeDone hop hall => exact { h with }
  | writeFailed hop hlt => exact { h with }
  | readMore hop hn hlt => exact { h with }
  | readDone hop hall => exact { h with }
  | readFailed hop hlt => exact { h with }
  | timeout hqueued => exact (h.setTimer _ _).cancelSocket _
  | reset hqueued => exact h.setTimer _ _

theorem Settled.run {actions : List Action} (h : Settled job.request job.stream job.length t)
    (hr : Reached job t) (hrun : run TcpTransfer.step actions t = some t') :
    Settled job.request job.stream job.length t' :=
  hr.keeps (fun _ _ _ hr h hs => h.step hr hs) h hrun

/-- An error would have left something to do. -/
theorem Settled.done (h : Settled job.request job.stream job.length t) (hr : Reached job t)
    (hop : t.operation = none) : Done job t := by
  rcases hr.stage.of_none hop with ⟨ec, hf⟩ | ⟨ec, hf⟩ | hd
  · obtain ⟨total, hlt, hsent⟩ := hf.sent
    have hlen := List.length_take_le total job.request
    rw [← hsent, h.sent] at hlen
    omega
  · obtain ⟨got, hlt, hstream⟩ := hf.stream
    have hlen := congrArg List.length hstream
    rw [List.length_append, h.remaining, List.length_drop] at hlen
    have := h.enough
    omega
  · exact hd

/-! ## The end of a run -/

/-- A part that is with the socket can always fail. -/
theorem not_pending_of_stuck (hstuck : Stuck busyStep t) {direction : Direction}
    {total maxSize : Nat} : t.operation ≠ some ⟨direction, total, .pending maxSize⟩ := by
  intro hop
  have hnone : busyStep (.fail .eof) t = none := hstuck (.fail .eof)
  cases hnone.symm.trans (Steps.fail .eof hop).step

/-- When nothing is possible no work is left. -/
theorem stopped_of_stuck (hr : Reached job t) (hstuck : Stuck busyStep t) : t.stopped = true := by
  have hop : t.operation = none := by
    cases hop : t.operation with
    | none => rfl
    | some operation =>
      obtain ⟨direction, total, part⟩ := operation
      cases part with
      | pending maxSize => exact absurd hop (not_pending_of_stuck hstuck)
      | completed ec n =>
        have hcomplete : TcpTransfer.step .complete t = none := hstuck .complete
        cases direction <;> simp [TcpTransfer.step, hop] at hcomplete
  have hidle : ∀ direction, (t.timer direction).idle = true := by
    intro direction
    have hwait := hr.waits.of_none hop direction
    have htimeout : TcpTransfer.step (.timeout direction) t = none := hstuck (.timeout direction)
    have hreset : TcpTransfer.step (.reset direction) t = none := hstuck (.reset direction)
    simp only [TcpTransfer.step, ite_eq_right_iff, reduceCtorEq, imp_false, Nat.not_lt,
      Nat.le_zero] at htimeout hreset
    simp [Timer.idle, hwait, htimeout, hreset]
  exact stopped_iff.mpr ⟨hop, hidle .read, hidle .write⟩

/-- Every run comes to its end, keeping what each step keeps. -/
theorem Reached.ends {I : TcpTransfer → Prop} (hr : Reached job t)
    (hstep : ∀ action t t', Reached job t → I t → Steps t action t' → I t') (hI : I t) :
    Inevitable busyStep (fun t => t.stopped = true ∧ Reached job t ∧ I t) t := by
  refine Inevitable.of_measure (I := fun t => Reached job t ∧ I t) work ?_ ?_ ⟨hr, hI⟩
  · intro action t t' h hs
    obtain ⟨hr, hI⟩ := h
    obtain ⟨hs, hbusy⟩ := step_of_busyStep hs
    have hsteps := steps_of_step hr.fits hs
    exact ⟨⟨hr.step hs, hstep _ _ _ hr hI hsteps⟩, hsteps.work_lt hbusy⟩
  · intro t h hstuck
    exact ⟨stopped_of_stuck h.1 hstuck, h⟩

theorem Done.buffer_eq (h : Done job t) : t.buffer = job.stream.take job.length := by
  rw [h.stream, ← h.written.serves.buffer, List.take_left]

/-- How a call ended: with an error that some operation ended with, or done. -/
inductive Outcome (job : Job) (t : TcpTransfer) : Except ErrorCode Bytes → Prop where
  | failed {ec : ErrorCode} {direction : Direction} (h : (direction, some ec) ∈ t.ended) :
      Outcome job t (.error ec)
  | done (h : Done job t) : Outcome job t (.ok t.buffer)

/-- An operation has ended with an error. -/
def Failed (t : TcpTransfer) : Prop := ∃ direction ec, (direction, some ec) ∈ t.ended

theorem Failed.step {action : Action} (h : Failed t) (hs : Steps t action t') : Failed t' := by
  obtain ⟨direction, ec, hmem⟩ := h
  exact ⟨direction, ec, hs.ended_prefix.subset hmem⟩

theorem doTransfer_cases {request : Bytes} {length : Nat} {actions : List Action}
    {r : Except ErrorCode Bytes} (h : t.doTransfer request length actions = some (r, t')) :
    t.isOpen = false ∧ r = .error .notConnected ∧ t' = t ∨
    t.isOpen = true ∧ run TcpTransfer.step actions (t.prepareTransfer request length) = some t' ∧
      t'.stopped = true ∧ r = t'.transferResult := by
  unfold doTransfer at h
  cases ho : t.isOpen with
  | false =>
    rw [ho] at h
    cases h
    exact .inl ⟨rfl, rfl, rfl⟩
  | true =>
    rw [ho] at h
    obtain ⟨mid, hrun, h⟩ := Option.bind_eq_some_iff.mp h
    split_ifs at h with hstopped
    cases h
    exact .inr ⟨rfl, hrun, hstopped, rfl⟩

theorem doRead_cases {length : Nat} {actions : List Action} {r : Except ErrorCode Bytes}
    (h : t.doRead length actions = some (r, t')) :
    t.isOpen = false ∧ r = .error .notConnected ∧ t' = t ∨
    t.isOpen = true ∧ run TcpTransfer.step actions (t.prepareRead length) = some t' ∧
      t'.stopped = true ∧ r = t'.readResult := by
  unfold doRead at h
  cases ho : t.isOpen with
  | false =>
    rw [ho] at h
    cases h
    exact .inl ⟨rfl, rfl, rfl⟩
  | true =>
    rw [ho] at h
    obtain ⟨mid, hrun, h⟩ := Option.bind_eq_some_iff.mp h
    split_ifs at h with hstopped
    cases h
    exact .inr ⟨rfl, hrun, hstopped, rfl⟩

/-- A socket on which every operation goes this way. -/
def Socket.going (isOpen : Bool) (incoming : Bytes) (event : IoEvent) : Socket :=
  ⟨isOpen, incoming, fun _ => event⟩

theorem Socket.read_going {stream got rest : Bytes} {length : Nat} (hstream : stream = got ++ rest)
    (hle : got.length ≤ length) (writeError : Option ErrorCode) (ec : ErrorCode) :
    (Socket.going true stream ⟨writeError, got.length, ec⟩).read length =
      (if got.length = length then .ok got else .error ec,
        .going true rest ⟨writeError, got.length, ec⟩) := by
  have harriving : (Socket.going true stream ⟨writeError, got.length, ec⟩).arriving length = got := by
    show stream.take (min length got.length) = got
    rw [Nat.min_eq_right hle, hstream, List.take_left]
  have hrest : stream.drop got.length = rest := by rw [hstream, List.drop_left]
  have hafter : { Socket.going true stream ⟨writeError, got.length, ec⟩ with
      incoming := stream.drop got.length
      events := (Socket.going true stream ⟨writeError, got.length, ec⟩).later } =
      Socket.going true rest ⟨writeError, got.length, ec⟩ := by
    rw [hrest]
    rfl
  unfold Socket.read
  rw [if_neg (by simp [Socket.going]), harriving]
  dsimp only
  split
  · exact congrArg (Prod.mk _) hafter
  · exact congrArg (Prod.mk _) hafter

/-- What a stage past the write comes to, on a socket where a read goes so. -/
theorem read_of_stage (h : Stage job t) (hop : t.operation = none)
    (hwritten : ∀ ec, ¬ WriteFailed job t ec) :
    ∃ event : IoEvent, event.writeError = none ∧
      (Socket.going true job.stream event).read job.length =
        (t.readResult, .going true t.remaining event) := by
  unfold readResult
  rcases h.of_none hop with ⟨ec, hf⟩ | ⟨ec, hf⟩ | hd
  · exact absurd hf (hwritten ec)
  · obtain ⟨got, hlt, hstream⟩ := hf.stream
    refine ⟨⟨none, got.length, ec⟩, rfl, ?_⟩
    rw [Socket.read_going hstream (Nat.le_of_lt hlt), if_neg (Nat.ne_of_lt hlt), hf.readError]
  · have hlength := hd.written.serves.buffer
    refine ⟨⟨none, t.buffer.length, .eof⟩, rfl, ?_⟩
    rw [Socket.read_going hd.stream (Nat.le_of_eq hlength), if_pos hlength, hd.readError]

/-- Whatever its handlers do, `do_read` is a read of the socket. -/
theorem doRead_refines {now readTimeout length : Nat} {isOpen : Bool} {arrivals : List Arrival}
    {actions : List Action} {r : Except ErrorCode Bytes}
    (h : (new now isOpen arrivals readTimeout).doRead length actions = some (r, t)) :
    ∃ event, (Socket.going isOpen (chunks arrivals) event).read length =
      (r, .going isOpen t.remaining event) := by
  obtain ⟨hclosed, rfl, rfl⟩ | ⟨hopen, hrun, hstopped, rfl⟩ := doRead_cases h
  · obtain rfl : isOpen = false := hclosed
    exact ⟨.timeout, rfl⟩
  · obtain rfl : isOpen = true := hopen
    have hr := (reached_prepareRead now true arrivals readTimeout length).run hrun
    have hop := (stopped_iff.mp hstopped).1
    obtain ⟨event, _, hread⟩ := read_of_stage hr.stage hop not_writeFailed_read
    exact ⟨event, hread⟩

/-- Whatever its handlers do, `do_transfer` is a transfer on the socket. -/
theorem doTransfer_refines {now readTimeout length : Nat} {isOpen : Bool} {arrivals : List Arrival}
    {request : Bytes} {actions : List Action} {r : Except ErrorCode Bytes}
    (h : (new now isOpen arrivals readTimeout).doTransfer request length actions = some (r, t)) :
    ∃ event, (Socket.going isOpen (chunks arrivals) event).transfer length =
      (r, .going isOpen t.remaining event) := by
  obtain ⟨hclosed, rfl, rfl⟩ | ⟨hopen, hrun, hstopped, rfl⟩ := doTransfer_cases h
  · obtain rfl : isOpen = false := hclosed
    exact ⟨.timeout, rfl⟩
  · obtain rfl : isOpen = true := hopen
    have hr := (reached_prepareTransfer now true arrivals readTimeout request length).run hrun
    have hop := (stopped_iff.mp hstopped).1
    unfold transferResult
    by_cases hfailed : ∃ ec, WriteFailed (.transfer request (chunks arrivals) length) t ec
    · obtain ⟨ec, hf⟩ := hfailed
      refine ⟨⟨some ec, 0, ec⟩, ?_⟩
      rw [hf.writeError, hf.remaining]
      rfl
    · obtain ⟨event, hwrite, hread⟩ := read_of_stage hr.stage hop (not_exists.mp hfailed)
      have hwritten : t.writeError = none := by
        rcases hr.stage.of_none hop with hf | ⟨ec, hf⟩ | hd
        · exact absurd hf hfailed
        · exact hf.written.writeError
        · exact hd.written.writeError
      have hgoing : (Socket.going true (chunks arrivals) event).write =
        (none, .going true (chunks arrivals) event) := congrArg (Prod.mk · _) hwrite
      refine ⟨event, ?_⟩
      rw [hwritten, Socket.transfer, hgoing]
      exact hread

end Bittorrent.Net

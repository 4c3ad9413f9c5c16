import Bittorrent.Misc.Transfers

/-! What the two timers of a transfer do. The write timer is cancelled when the
write has completed; a handler that is queued by then still cancels the socket
(`write_timeout_iff`). The read timer is given its expiry time once, so it bounds
the whole response and not the pauses in it (`doRead_returns_iff`). -/

namespace Bittorrent.Net

open Lib.Runs TcpTransfer

variable {job : Job} {t t' : TcpTransfer}

/-! ## The write timer -/

/-- The write timer has nothing to say any more. -/
structure WriteOver (t : TcpTransfer) : Prop where
  fits : t.Fits
  operation : ∀ total part, t.operation ≠ some ⟨.write, total, part⟩
  waiting : t.writeTimeoutTimer.waiting = 0
  expired : t.writeTimeoutTimer.expired = 0

/-- How often `_on_write_timeout` has cancelled the socket. -/
def writeTimeouts (t : TcpTransfer) : Nat := t.cancels.count .onWriteTimeout

theorem WriteOver.cancelSocket (h : WriteOver t) {caller : Handler}
    (hcaller : caller ≠ .onWriteTimeout) :
    WriteOver (t.cancelSocket caller) ∧ writeTimeouts (t.cancelSocket caller) = writeTimeouts t := by
  have hfits := h.fits.cancelSocket caller
  have hcount : writeTimeouts (t.cancelSocket caller) = writeTimeouts t := by
    rw [writeTimeouts, cancelSocket_cancels, List.count_append, List.count_singleton,
      if_neg (by simpa using hcaller)]
    rfl
  refine ⟨?_, hcount⟩
  rcases t.cancelSocket_eq caller with heq | ⟨direction, total, maxSize, hop, heq⟩
  · rw [heq] at hfits ⊢
    exact { h with fits := hfits }
  · rw [heq] at hfits ⊢
    refine { h with fits := hfits, operation := fun _ _ he => ?_ }
    cases he
    exact h.operation _ _ hop

theorem WriteOver.step {action : Action} (h : WriteOver t) (hs : Steps t action t') :
    WriteOver t' ∧ writeTimeouts t' = writeTimeouts t := by
  have hfits := hs.fits h.fits
  cases hs with
  | tick duration => exact ⟨{ h with fits := hfits }, rfl⟩
  | arrive harrivals htime => exact ⟨{ h with fits := hfits }, rfl⟩
  | send hop hpos hle => exact absurd hop (h.operation _ _)
  | receive hop hpos hle havailable =>
    exact ⟨{ h with fits := hfits, operation := fun _ _ he => by cases he }, rfl⟩
  | @fail direction total maxSize ec hop =>
    cases direction with
    | write => exact absurd hop (h.operation _ _)
    | read => exact ⟨{ h with fits := hfits, operation := fun _ _ he => by cases he }, rfl⟩
  | @expire direction hdue =>
    cases direction with
    | write => exact absurd hdue.2 (Nat.not_lt.mpr (Nat.le_of_eq h.waiting))
    | read => exact ⟨{ h with fits := hfits }, rfl⟩
  | writeMore hop hn hlt => exact absurd hop (h.operation _ _)
  | writeDone hop hall => exact absurd hop (h.operation _ _)
  | writeFailed hop hlt => exact absurd hop (h.operation _ _)
  | readMore hop hn hlt =>
    exact ⟨{ h with fits := hfits, operation := fun _ _ he => by cases he }, rfl⟩
  | readDone hop hall =>
    exact ⟨{ h with fits := hfits, operation := fun _ _ he => by cases he }, rfl⟩
  | readFailed hop hlt =>
    refine ⟨{ h with fits := hfits, operation := fun _ _ he => by cases he }, ?_⟩
    simp [writeTimeouts]
  | @timeout direction hqueued =>
    cases direction with
    | write => exact absurd hqueued (Nat.not_lt.mpr (Nat.le_of_eq h.expired))
    | read =>
      have hover : WriteOver (t.setTimer .read { t.readTimeoutTimer with
        expired := t.readTimeoutTimer.expired - 1 }) := { h with fits := h.fits.setTimer _ _ }
      exact hover.cancelSocket (fun he => by cases he)
  | @reset direction hqueued =>
    cases direction with
    | write => exact ⟨{ h with fits := hfits }, rfl⟩
    | read => exact ⟨{ h with fits := hfits }, rfl⟩

theorem WriteOver.run {actions : List Action} (h : WriteOver t)
    (hrun : run TcpTransfer.step actions t = some t') : writeTimeouts t' = writeTimeouts t := by
  have hstep : ∀ action mid mid', (WriteOver mid ∧ writeTimeouts mid = writeTimeouts t) →
      TcpTransfer.step action mid = some mid' →
      WriteOver mid' ∧ writeTimeouts mid' = writeTimeouts t := by
    rintro action mid mid' ⟨hmid, hcount⟩ hs
    obtain ⟨hmid', hsame⟩ := hmid.step (steps_of_step hmid.fits hs)
    exact ⟨hmid', hsame.trans hcount⟩
  exact (run_invariant hstep ⟨h, rfl⟩ hrun).2

/-- The write ends without error in one kind of step only. -/
theorem writeOver_of_ended (hfits : t.Fits) (hs : TcpTransfer.step .complete t = some t')
    (hended : t'.ended = t.ended ++ [(.write, none)]) (hexpired : t.writeTimeoutTimer.expired = 0) :
    WriteOver t' := by
  have hs := steps_of_step hfits hs
  have hfits' := hs.fits hfits
  cases hs with
  | writeDone hop hall => exact ⟨hfits', fun _ _ he => (by cases he), rfl, hexpired⟩
  | writeMore hop hn hlt => simp at hended
  | writeFailed hop hlt => simp at hended
  | readMore hop hn hlt => simp at hended
  | readDone hop hall => simp at hended
  | readFailed hop hlt => simp at hended

theorem expired_of_ended (hfits : t.Fits) (hs : TcpTransfer.step .complete t = some t')
    (hended : t'.ended = t.ended ++ [(.write, none)]) :
    t'.writeTimeoutTimer.expired = t.writeTimeoutTimer.expired := by
  cases steps_of_step hfits hs with
  | writeDone hop hall => rfl
  | writeMore hop hn hlt => simp at hended
  | writeFailed hop hlt => simp at hended
  | readMore hop hn hlt => simp at hended
  | readDone hop hall => simp at hended
  | readFailed hop hlt => simp at hended

/-- After a write that completed without error its timer cancels the socket in no
run exactly when its handler is not queued already. -/
theorem write_timeout_iff {now readTimeout length : Nat} {isOpen : Bool} {arrivals : List Arrival}
    {request : Bytes} {actions : List Action} {mid after : TcpTransfer}
    (hrun : run TcpTransfer.step actions
      ((new now isOpen arrivals readTimeout).prepareTransfer request length) = some mid)
    (hs : TcpTransfer.step .complete mid = some after)
    (hended : after.ended = mid.ended ++ [(.write, none)]) :
    (∀ later t, run TcpTransfer.step later after = some t → writeTimeouts t = writeTimeouts after) ↔
      mid.writeTimeoutTimer.expired = 0 := by
  have hr := (reached_prepareTransfer now isOpen arrivals readTimeout request length).run hrun
  constructor
  · intro h
    by_contra hexpired
    have hqueued : 0 < (after.timer .write).expired :=
      Nat.pos_of_ne_zero ((expired_of_ended hr.fits hs hended).symm ▸ hexpired)
    have hcount := h [.timeout .write] _ (run_cons_eq_some.mpr ⟨_, (Steps.timeout hqueued).step, rfl⟩)
    rw [writeTimeouts, cancelSocket_cancels, List.count_append] at hcount
    exact absurd hcount (Nat.succ_ne_self _)
  · intro hexpired later t hlater
    exact (writeOver_of_ended hr.fits hs hended hexpired).run hlater

/-- A write that completes at once. -/
theorem write_timeout_iff_once : ∃ mid after,
    run TcpTransfer.step [.transfer 1] ((new 0 true [] 10).prepareTransfer [7] 1) = some mid ∧
    TcpTransfer.step .complete mid = some after ∧ after.ended = mid.ended ++ [(.write, none)] ∧
    ((∀ later t, run TcpTransfer.step later after = some t → writeTimeouts t = writeTimeouts after) ↔
      mid.writeTimeoutTimer.expired = 0) :=
  ⟨_, _, rfl, rfl, rfl, @write_timeout_iff 0 10 1 true [] [7] [.transfer 1] _ _ rfl rfl rfl⟩

/-- The write has completed and its timer has expired; the completion is handled first. -/
theorem write_timed_out :
    ¬ ∀ (now readTimeout length : Nat) (isOpen : Bool) (arrivals : List Arrival) (request : Bytes)
      (actions : List Action) (mid after : TcpTransfer),
      run TcpTransfer.step actions
        ((new now isOpen arrivals readTimeout).prepareTransfer request length) = some mid →
      TcpTransfer.step .complete mid = some after → after.ended = mid.ended ++ [(.write, none)] →
      ∀ later t, run TcpTransfer.step later after = some t →
        writeTimeouts t = writeTimeouts after := by
  intro h
  have hcount := h 0 10 1 true [] [7] [.transfer 1, .tick (2 * ticksPerSecond), .expire .write] _ _
    rfl rfl rfl [.timeout .write] _ rfl
  cases hcount

/-- The peer is to answer in time, and the transfer ends with an error. -/
example : (((new 0 true [⟨2 * ticksPerSecond, [1], by decide⟩] 10).doTransfer [7] 1
    [.transfer 1, .tick (2 * ticksPerSecond), .expire .write, .complete, .timeout .write, .complete,
      .reset .read, .reset .read]).map fun r => match r.1 with
        | .ok _ => none
        | .error ec => some ec) = some (some .operationAborted) := rfl

/-! ## Runs in time -/

/-- When something will happen by itself. -/
def TcpTransfer.upcoming (t : TcpTransfer) : List Nat :=
  t.arrivals.head?.toList.map Arrival.time ++
    [Direction.write, .read].filterMap fun direction =>
      if 0 < (t.timer direction).waiting then some (t.timer direction).expiry else none

/-- No handler is queued, and a read waits for bytes. -/
def TcpTransfer.calm (t : TcpTransfer) : Bool :=
  (match t.operation with
    | some ⟨.read, _, .pending _⟩ => t.available.isEmpty
    | some ⟨_, _, .completed _ _⟩ => false
    | _ => true) &&
  (t.readTimeoutTimer.expired + t.readTimeoutTimer.aborted + t.writeTimeoutTimer.expired +
    t.writeTimeoutTimer.aborted = 0)

/-- Nothing fails, chunks arrive at their times, timers expire at theirs, and the
clock advances only when nothing else is to be done. -/
def pacedStep (action : Action) (t : TcpTransfer) : Option TcpTransfer :=
  if t.stopped then none
  else
    match action with
    | .tick duration =>
      if 0 < duration ∧ t.calm ∧ ∀ time ∈ t.upcoming, t.now + duration ≤ time then
        TcpTransfer.step (.tick duration) t
      else none
    | .fail _ => none
    | action => TcpTransfer.step action t

theorem step_of_pacedStep {action : Action} (h : pacedStep action t = some t') :
    TcpTransfer.step action t = some t' ∧ t.stopped = false ∧ (∀ ec, action ≠ .fail ec) ∧
      ∀ duration, action = .tick duration →
        0 < duration ∧ t.calm ∧ ∀ time ∈ t.upcoming, t.now + duration ≤ time := by
  unfold pacedStep at h
  split at h
  · cases h
  · next hstopped =>
    have hstopped := Bool.eq_false_iff.mpr hstopped
    cases action with
    | tick duration =>
      dsimp only at h
      split_ifs at h with hpaced
      refine ⟨h, hstopped, fun _ he => (by cases he), fun d he => ?_⟩
      cases he
      exact hpaced
    | fail ec => cases h
    | _ => exact ⟨h, hstopped, fun _ he => (by cases he), fun _ he => (by cases he)⟩

/-- Neither the clock nor a failure. -/
def TcpTransfer.Action.isPrompt : Action → Bool
  | .tick _ => false
  | .fail _ => false
  | _ => true

theorem pacedStep_of_steps {action : Action} (hstopped : t.stopped = false)
    (hs : Steps t action t') (hprompt : action.isPrompt = true) : pacedStep action t = some t' := by
  unfold pacedStep
  rw [if_neg (by simp [hstopped])]
  cases action with
  | tick duration => cases hprompt
  | fail ec => cases hprompt
  | _ => exact hs.step

theorem pacedStep_tick {duration : Nat} (hstopped : t.stopped = false) (hpos : 0 < duration)
    (hcalm : t.calm = true) (hupcoming : ∀ time ∈ t.upcoming, t.now + duration ≤ time) :
    pacedStep (.tick duration) t = some { t with now := t.now + duration } := by
  unfold pacedStep
  rw [if_neg (by simp [hstopped])]
  exact if_pos ⟨hpos, hcalm, hupcoming⟩

/-- The call returns these bytes in every run in time. -/
def Returns (start : TcpTransfer) (result : TcpTransfer → Except ErrorCode Bytes) (bytes : Bytes) :
    Prop :=
  Inevitable pacedStep (fun t => t.stopped = true ∧ result t = .ok bytes) start

/-! ## Reads -/

/-- A read of the whole stream whose timer expires at `deadline`; the write timer is idle. -/
structure ReadUnder (deadline : Nat) (stream : Bytes) (t : TcpTransfer) : Prop where
  reached : Reached (.read stream stream.length) t
  expiry : t.readTimeoutTimer.expiry = deadline
  writeTimer : t.writeTimeoutTimer.idle = true

section
variable {deadline : Nat} {stream : Bytes}

theorem ReadUnder.not_writing (h : ReadUnder deadline stream t) {total : Nat} {part : Part} :
    t.operation ≠ some ⟨.write, total, part⟩ := by
  intro hop
  cases congrArg Job.writeError (h.reached.stage.of_write hop).isTransfer

theorem ReadUnder.step {action : Action} (h : ReadUnder deadline stream t)
    (hs : Steps t action t') : ReadUnder deadline stream t' := by
  have hreached := h.reached.step hs.step
  obtain ⟨hwaiting, hexpired, haborted⟩ := Timer.idle_iff.mp h.writeTimer
  cases hs with
  | tick duration => exact { h with reached := hreached }
  | arrive harrivals htime => exact { h with reached := hreached }
  | send hop hpos hle => exact absurd hop h.not_writing
  | receive hop hpos hle havailable => exact { h with reached := hreached }
  | fail ec hop => exact { h with reached := hreached }
  | @expire direction hdue =>
    cases direction with
    | write => exact absurd hdue.2 (Nat.not_lt.mpr (Nat.le_of_eq hwaiting))
    | read => exact { h with reached := hreached }
  | writeMore hop hn hlt => exact absurd hop h.not_writing
  | writeDone hop hall => exact absurd hop h.not_writing
  | writeFailed hop hlt => exact absurd hop h.not_writing
  | readMore hop hn hlt => exact { h with reached := hreached }
  | readDone hop hall => exact { h with reached := hreached }
  | readFailed hop hlt => exact { h with reached := hreached }
  | @timeout direction hqueued =>
    cases direction with
    | write => exact absurd hqueued (Nat.not_lt.mpr (Nat.le_of_eq hexpired))
    | read =>
      obtain ⟨hread, hwrite⟩ := cancelSocket_timers (t.setTimer .read { t.readTimeoutTimer with
        expired := t.readTimeoutTimer.expired - 1 }) .onReadTimeout
      exact ⟨hreached, (congrArg Timer.expiry hread).trans h.expiry,
        (congrArg Timer.idle hwrite).trans h.writeTimer⟩
  | @reset direction hqueued =>
    cases direction with
    | write => exact absurd hqueued (Nat.not_lt.mpr (Nat.le_of_eq haborted))
    | read => exact { h with reached := hreached }

/-- What the part under way has not transferred is still to come. -/
theorem ReadUnder.left (h : ReadUnder deadline stream t) {total : Nat} {part : Part}
    (hop : t.operation = some ⟨.read, total, part⟩) :
    total + part.transferred + t.remaining.length = stream.length := by
  have hd := h.reached.stage.of_read hop
  obtain ⟨hle, hfits⟩ := h.reached.fits _ _ _ hop
  have hlength : t.expectedResponseLength = stream.length := hd.written.serves.length
  have hbuffer : t.buffer.length = stream.length := hd.written.serves.buffer
  have htransferred : total + part.transferred ≤ stream.length := by
    dsimp only [size] at hle hfits
    match part, hfits with
    | .pending maxSize, _ =>
      dsimp only [Part.transferred]
      omega
    | .completed none n, hfits =>
      dsimp only [Part.transferred]
      have := hfits.1
      omega
    | .completed (some ec) n, hfits =>
      dsimp only [Part.transferred]
      have := hfits.1
      omega
  have hstream := congrArg List.length hd.stream
  rw [List.length_append, List.length_take_of_le (by rw [hbuffer]; exact htransferred)] at hstream
  exact hstream.symm

/-- A read that has returned no work has a result. -/
theorem ReadUnder.stopped_iff (h : ReadUnder deadline stream t) : t.stopped = true ↔
    t.operation = none ∧ t.readTimeoutTimer.expired = 0 ∧ t.readTimeoutTimer.aborted = 0 := by
  constructor
  · intro hs
    obtain ⟨hop, hread, _⟩ := TcpTransfer.stopped_iff.mp hs
    exact ⟨hop, (Timer.idle_iff.mp hread).2⟩
  · rintro ⟨hop, hidle⟩
    have hwaiting : t.readTimeoutTimer.waiting = 0 := h.reached.waits.of_none hop .read
    exact TcpTransfer.stopped_iff.mpr ⟨hop, Timer.idle_iff.mpr ⟨hwaiting, hidle⟩, h.writeTimer⟩

/-- The clock goes on while the read waits for an arrival. -/
theorem ReadUnder.of_calm (h : ReadUnder deadline stream t) (hstopped : t.stopped = false)
    (hcalm : t.calm = true) : ∃ total maxSize arrival arrivals,
      t.operation = some ⟨.read, total, .pending maxSize⟩ ∧ t.arrivals = arrival :: arrivals := by
  simp only [calm, Bool.and_eq_true, decide_eq_true_eq] at hcalm
  obtain ⟨hcalm, hqueued⟩ := hcalm
  cases hop : t.operation with
  | none =>
    rw [h.stopped_iff.mpr ⟨hop, by omega, by omega⟩] at hstopped
    cases hstopped
  | some operation =>
    obtain ⟨direction, total, part⟩ := operation
    cases direction with
    | write => exact absurd hop h.not_writing
    | read =>
      cases part with
      | completed ec n =>
        rw [hop] at hcalm
        cases hcalm
      | pending maxSize =>
        rw [hop] at hcalm
        have havailable : t.available = [] := List.isEmpty_iff.mp hcalm
        have hleft := h.left hop
        obtain ⟨hmax, hpos⟩ := h.reached.fits.pending_pos hop
        have hlength : t.expectedResponseLength = stream.length :=
          (h.reached.stage.of_read hop).written.serves.length
        cases harrivals : t.arrivals with
        | nil =>
          have hnone : t.remaining = [] := by
            rw [remaining, havailable, harrivals]
            rfl
          rw [hnone] at hleft
          dsimp only [Part.transferred, size, List.length_nil] at hleft hmax
          omega
        | cons arrival arrivals => exact ⟨total, maxSize, arrival, arrivals, rfl, rfl⟩

theorem upcoming_head {arrival : Arrival} {arrivals : List Arrival}
    (h : t.arrivals = arrival :: arrivals) : arrival.time ∈ t.upcoming := by
  simp [upcoming, h]

theorem ReadUnder.upcoming_cases (h : ReadUnder deadline stream t) {arrival : Arrival}
    {arrivals : List Arrival} (harrivals : t.arrivals = arrival :: arrivals) {time : Nat}
    (htime : time ∈ t.upcoming) : time = arrival.time ∨ time = deadline := by
  have hwaiting : ¬ 0 < t.writeTimeoutTimer.waiting :=
    Nat.not_lt.mpr (Nat.le_of_eq (Timer.idle_iff.mp h.writeTimer).1)
  rw [upcoming, harrivals, List.mem_append] at htime
  rcases htime with htime | htime
  · exact .inl (List.mem_singleton.mp htime)
  · obtain ⟨direction, hdirection, htime⟩ := List.mem_filterMap.mp htime
    simp only [Option.ite_none_right_eq_some, Option.some.injEq] at htime
    obtain ⟨hpos, rfl⟩ := htime
    cases direction with
    | write => exact absurd hpos hwaiting
    | read => exact .inr h.expiry

/-- A read that waits for bytes, with no handler queued. -/
theorem ReadUnder.calm_of (h : ReadUnder deadline stream t) {total maxSize : Nat}
    (hop : t.operation = some ⟨.read, total, .pending maxSize⟩) (havailable : t.available = [])
    (hexpired : t.readTimeoutTimer.expired = 0) (haborted : t.readTimeoutTimer.aborted = 0) :
    t.calm = true := by
  obtain ⟨_, hexpired', haborted'⟩ := Timer.idle_iff.mp h.writeTimer
  simp [calm, hop, havailable, hexpired, haborted, hexpired', haborted']

theorem ReadUnder.not_stopped (h : ReadUnder deadline stream t) {operation : Operation}
    (hop : t.operation = some operation) : t.stopped = false := by
  rw [Bool.eq_false_iff]
  intro hs
  cases hop.symm.trans (h.stopped_iff.mp hs).1

/-- A part that is pending can go on, or the next chunk is waited for. -/
theorem ReadUnder.available_or_calm (h : ReadUnder deadline stream t) {total maxSize : Nat}
    (hop : t.operation = some ⟨.read, total, .pending maxSize⟩)
    (hexpired : t.readTimeoutTimer.expired = 0) (haborted : t.readTimeoutTimer.aborted = 0) :
    1 ≤ t.available.length ∨
      t.calm = true ∧ ∃ arrival arrivals, t.arrivals = arrival :: arrivals := by
  cases havailable : t.available with
  | cons b available => exact .inl (Nat.succ_pos _)
  | nil =>
    have hcalm := h.calm_of hop havailable hexpired haborted
    obtain ⟨_, _, arrival, arrivals, _, harrivals⟩ := h.of_calm (h.not_stopped hop) hcalm
    exact .inr ⟨hcalm, arrival, arrivals, harrivals⟩

/-! ## A read in time returns -/

/-- All that is to come comes before the deadline, and nothing has failed. -/
structure Timely (deadline : Nat) (stream : Bytes) (t : TcpTransfer) : Prop where
  under : ReadUnder deadline stream t
  now_lt : t.now < deadline
  arrivals_lt : ∀ arrival ∈ t.arrivals, arrival.time < deadline
  notExpired : t.readTimeoutTimer.expired = 0
  readError : t.readError = none
  notFailed : ∀ total ec n, t.operation ≠ some ⟨.read, total, .completed (some ec) n⟩

theorem Timely.step {action : Action} (h : Timely deadline stream t)
    (hs : pacedStep action t = some t') : Timely deadline stream t' := by
  obtain ⟨hs, hstopped, hfail, htick⟩ := step_of_pacedStep hs
  have hs := steps_of_step h.under.reached.fits hs
  have hunder := h.under.step hs
  cases hs with
  | tick duration =>
    obtain ⟨_, hcalm, hupcoming⟩ := htick duration rfl
    obtain ⟨_, _, arrival, arrivals, _, harrivals⟩ := h.under.of_calm hstopped hcalm
    have hle := hupcoming arrival.time (upcoming_head harrivals)
    have hlt := h.arrivals_lt arrival (by rw [harrivals]; exact List.mem_cons_self)
    exact { h with under := hunder, now_lt := Nat.lt_of_le_of_lt hle hlt }
  | arrive harrivals htime =>
    refine { h with under := hunder, arrivals_lt := fun arrival ha => h.arrivals_lt arrival ?_ }
    rw [harrivals]
    exact List.mem_cons_of_mem _ ha
  | send hop hpos hle => exact absurd hop h.under.not_writing
  | receive hop hpos hle havailable =>
    exact { h with under := hunder, notFailed := fun _ _ _ he => by cases he }
  | fail ec hop => exact absurd rfl (hfail ec)
  | @expire direction hdue =>
    cases direction with
    | write =>
      exact absurd hdue.2 (Nat.not_lt.mpr (Nat.le_of_eq (Timer.idle_iff.mp h.under.writeTimer).1))
    | read =>
      have hdue : t.readTimeoutTimer.expiry ≤ t.now := hdue.1
      rw [h.under.expiry] at hdue
      exact absurd h.now_lt (Nat.not_lt.mpr hdue)
  | writeMore hop hn hlt => exact absurd hop h.under.not_writing
  | writeDone hop hall => exact absurd hop h.under.not_writing
  | writeFailed hop hlt => exact absurd hop h.under.not_writing
  | readMore hop hn hlt =>
    refine { h with under := hunder, readError := rfl, notFailed := fun _ _ _ he => ?_ }
    exact Part.start_ne_failed _ _ _ (congrArg Operation.part (Option.some.inj he))
  | readDone hop hall =>
    exact { h with under := hunder, readError := rfl, notFailed := fun _ _ _ he => by cases he }
  | readFailed hop hlt => exact absurd hop (h.notFailed _ _ _)
  | @timeout direction hqueued =>
    cases direction with
    | write =>
      exact absurd hqueued (Nat.not_lt.mpr (Nat.le_of_eq (Timer.idle_iff.mp h.under.writeTimer).2.1))
    | read => exact absurd hqueued (Nat.not_lt.mpr (Nat.le_of_eq h.notExpired))
  | @reset direction hqueued =>
    cases direction with
    | write => exact { h with under := hunder }
    | read => exact { h with under := hunder }

/-- Both the clock and the work move on. -/
theorem Timely.measure_lt {action : Action} (h : Timely deadline stream t)
    (hs : pacedStep action t = some t') : deadline - t'.now + work t' < deadline - t.now + work t := by
  have hafter := (h.step hs).now_lt
  obtain ⟨hs, _, _, htick⟩ := step_of_pacedStep hs
  have hs := steps_of_step h.under.reached.fits hs
  by_cases hbusy : ∃ duration, action = .tick duration
  · obtain ⟨duration, rfl⟩ := hbusy
    obtain ⟨hpos, _, _⟩ := htick duration rfl
    cases hs with
    | tick duration =>
      show deadline - (t.now + duration) + work t < deadline - t.now + work t
      have := h.now_lt
      omega
  · have hlt := hs.work_lt (not_exists.mp hbusy)
    have hnow : t'.now = t.now := hs.now_eq (not_exists.mp hbusy)
    rw [hnow]
    exact Nat.add_lt_add_left hlt _

/-- Until the call returns there is something to do, or to wait for. -/
theorem Timely.stopped_of_stuck (h : Timely deadline stream t) (hstuck : Stuck pacedStep t) :
    t.stopped = true := by
  by_contra hstopped
  have hstopped := Bool.eq_false_iff.mpr hstopped
  have hpossible : ∀ {action t'}, Steps t action t' → action.isPrompt = true → False := by
    intro action t' hs hprompt
    cases (hstuck action).symm.trans (pacedStep_of_steps hstopped hs hprompt)
  by_cases haborted : t.readTimeoutTimer.aborted = 0
  · cases hop : t.operation with
    | none =>
      rw [h.under.stopped_iff.mpr ⟨hop, h.notExpired, haborted⟩] at hstopped
      cases hstopped
    | some operation =>
      obtain ⟨direction, total, part⟩ := operation
      cases direction with
      | write => exact h.under.not_writing hop
      | read =>
        cases part with
        | completed ec n =>
          have hcomplete := hstuck .complete
          simp [pacedStep, hstopped, TcpTransfer.step, hop] at hcomplete
        | pending maxSize =>
          rcases h.under.available_or_calm hop h.notExpired haborted with
            hone | ⟨hcalm, arrival, arrivals, harrivals⟩
          · have hpos := (h.under.reached.fits.pending_pos hop).2
            exact hpossible (.receive hop Nat.one_pos hpos hone) rfl
          · by_cases htime : arrival.time ≤ t.now
            · exact hpossible (.arrive harrivals htime) rfl
            · have hlt := h.arrivals_lt arrival (by rw [harrivals]; exact List.mem_cons_self)
              have hupcoming : ∀ time ∈ t.upcoming, t.now + (arrival.time - t.now) ≤ time := by
                intro time hmem
                rcases h.under.upcoming_cases harrivals hmem with rfl | rfl <;> omega
              have htick := pacedStep_tick hstopped (by omega) hcalm hupcoming
              cases (hstuck _).symm.trans htick
  · exact hpossible (@Steps.reset t .read (Nat.pos_of_ne_zero haborted)) rfl

theorem Timely.returned (h : Timely deadline stream t) (hstopped : t.stopped = true) :
    t.readResult = .ok stream := by
  have hop := (stopped_iff.mp hstopped).1
  rcases h.under.reached.stage.of_none hop with ⟨ec, hf⟩ | ⟨ec, hf⟩ | hd
  · exact absurd hf (not_writeFailed_read ec)
  · cases h.readError.symm.trans hf.readError
  · rw [readResult, h.readError, hd.buffer_eq]
    exact congrArg Except.ok List.take_length

theorem Timely.returns (h : Timely deadline stream t) : Returns t readResult stream := by
  refine Inevitable.of_measure (I := Timely deadline stream) (fun t => deadline - t.now + work t)
    (fun _ _ _ h hs => ⟨h.step hs, h.measure_lt hs⟩) (fun t h hstuck => ?_) h
  have hstopped := h.stopped_of_stuck hstuck
  exact ⟨hstopped, h.returned hstopped⟩

/-! ## A read that is late fails -/

/-- Some bytes come no earlier than the deadline, and the clock has not passed it;
or the timer has expired, and what follows from it. -/
inductive Doomed (deadline : Nat) (t : TcpTransfer) : Prop where
  | waiting {total : Nat} {part : Part} (hop : t.operation = some ⟨.read, total, part⟩)
      (hpart : ∀ ec n, part ≠ .completed (some ec) n) (hwait : 0 < t.readTimeoutTimer.waiting)
      (hexpired : t.readTimeoutTimer.expired = 0) (hnow : t.now ≤ deadline)
      (hlate : ∃ arrival ∈ t.arrivals, deadline ≤ arrival.time)
  | expired {total maxSize : Nat} (hop : t.operation = some ⟨.read, total, .pending maxSize⟩)
      (hexpired : 0 < t.readTimeoutTimer.expired)
  | failing {total n : Nat} {ec : ErrorCode}
      (hop : t.operation = some ⟨.read, total, .completed (some ec) n⟩)
  | failed {ec : ErrorCode} (hop : t.operation = none) (hread : t.readError = some ec)

/-- A run can go on to a doomed state, or is over without the bytes. -/
def GoesOn (deadline : Nat) (stream : Bytes) (t : TcpTransfer) : Prop :=
  (∃ action t', pacedStep action t = some t' ∧ ReadUnder deadline stream t' ∧ Doomed deadline t') ∨
    Stuck pacedStep t ∧ ¬ (t.stopped = true ∧ t.readResult = .ok stream)

theorem ReadUnder.goesOn (h : ReadUnder deadline stream t) (hstopped : t.stopped = false)
    {action : Action} (hs : Steps t action t') (hprompt : action.isPrompt = true)
    (hdoomed : Doomed deadline t') : GoesOn deadline stream t :=
  .inl ⟨action, t', pacedStep_of_steps hstopped hs hprompt, h.step hs, hdoomed⟩

/-- With something still to come there is more to read behind a part. -/
theorem ReadUnder.not_all (h : ReadUnder deadline stream t) {total n : Nat}
    (hop : t.operation = some ⟨.read, total, .completed none n⟩) {arrival : Arrival}
    (harrival : arrival ∈ t.arrivals) : n ≠ 0 ∧ total + n < t.expectedResponseLength := by
  have hlength : t.expectedResponseLength = stream.length :=
    (h.reached.stage.of_read hop).written.serves.length
  have hleft := h.left hop
  have hpos : 0 < t.remaining.length := by
    rw [remaining, List.length_append]
    exact Nat.add_pos_right _ (chunks_pos harrival)
  dsimp only [Part.transferred] at hleft
  refine ⟨?_, by omega⟩
  rintro rfl
  have hzero := (h.reached.fits _ _ _ hop).2.2 rfl
  dsimp only [size] at hzero
  omega

/-- The timer is waited for until the clock reaches the deadline. -/
theorem goesOn_pending (h : ReadUnder deadline stream t) {total maxSize : Nat}
    (hop : t.operation = some ⟨.read, total, .pending maxSize⟩)
    (hwait : 0 < t.readTimeoutTimer.waiting) (hexpired : t.readTimeoutTimer.expired = 0)
    (haborted : t.readTimeoutTimer.aborted = 0) (hnow : t.now ≤ deadline) {late : Arrival}
    (hmem : late ∈ t.arrivals) (hlate : deadline ≤ late.time) : GoesOn deadline stream t := by
  have hstopped := h.not_stopped hop
  have hpart : ∀ ec n, Part.pending maxSize ≠ .completed (some ec) n := fun _ _ he => by cases he
  by_cases hdue : deadline ≤ t.now
  · refine h.goesOn hstopped (@Steps.expire t .read ⟨h.expiry.symm ▸ hdue, hwait⟩)
      rfl (.expired hop ?_)
    exact Nat.lt_of_lt_of_le hwait (Nat.le_add_left _ _)
  · rcases h.available_or_calm hop hexpired haborted with
      hone | ⟨hcalm, arrival, arrivals, harrivals⟩
    · have hpos := (h.reached.fits.pending_pos hop).2
      refine h.goesOn hstopped (.receive hop Nat.one_pos hpos hone) rfl ?_
      exact .waiting rfl (fun _ _ he => by cases he) hwait hexpired hnow ⟨late, hmem, hlate⟩
    · by_cases htime : arrival.time ≤ t.now
      · refine h.goesOn hstopped (.arrive harrivals htime) rfl ?_
        refine .waiting hop hpart hwait hexpired hnow ⟨late, ?_, hlate⟩
        rw [harrivals] at hmem
        rcases List.mem_cons.mp hmem with rfl | hmem
        · omega
        · exact hmem
      · have hupcoming : ∀ time ∈ t.upcoming,
            t.now + (min arrival.time deadline - t.now) ≤ time := by
          intro time htime
          rcases h.upcoming_cases harrivals htime with rfl | rfl <;> omega
        refine .inl ⟨_, _, pacedStep_tick hstopped (by omega) hcalm hupcoming, h.step (.tick _), ?_⟩
        exact .waiting hop hpart hwait hexpired (by dsimp only; omega) ⟨late, hmem, hlate⟩

theorem doomed_goesOn (h : ReadUnder deadline stream t) (hd : Doomed deadline t) :
    GoesOn deadline stream t := by
  cases hd with
  | @waiting total part hop hpart hwait hexpired hnow hlate =>
    have hstopped := h.not_stopped hop
    obtain ⟨late, hmem, hlate⟩ := hlate
    by_cases haborted : t.readTimeoutTimer.aborted = 0
    · match part with
      | .pending maxSize => exact goesOn_pending h hop hwait hexpired haborted hnow hmem hlate
      | .completed (some ec) n => exact absurd rfl (hpart ec n)
      | .completed none n =>
        obtain ⟨hn, hlt⟩ := h.not_all hop hmem
        refine h.goesOn hstopped (.readMore hop hn hlt) rfl ?_
        exact .waiting rfl (Part.start_ne_failed _) (Nat.succ_pos _) hexpired hnow ⟨late, hmem, hlate⟩
    · refine h.goesOn hstopped (@Steps.reset t .read (Nat.pos_of_ne_zero haborted))
        rfl ?_
      exact .waiting hop hpart hwait hexpired hnow ⟨late, hmem, hlate⟩
  | @expired total maxSize hop hexpired =>
    have hcancel := fun timer : Timer =>
      @cancelSocket_pending (t.setTimer .read timer) .read total maxSize hop .onReadTimeout
    exact h.goesOn (h.not_stopped hop) (@Steps.timeout t .read hexpired) rfl (.failing (hcancel _))
  | @failing total n ec hop =>
    have hlt : total + n < t.expectedResponseLength := by
      obtain ⟨hle, rfl, hleft⟩ := h.reached.fits _ _ _ hop
      dsimp only [size] at hleft
      omega
    exact h.goesOn (h.not_stopped hop) (.readFailed hop hlt) rfl (.failed rfl rfl)
  | @failed ec hop hread =>
    cases hstopped : t.stopped with
    | true =>
      refine .inr ⟨fun action => ?_, fun hok => ?_⟩
      · unfold pacedStep
        exact if_pos hstopped
      · rw [readResult, hread] at hok
        cases hok.2
    | false =>
      by_cases hexpired : t.readTimeoutTimer.expired = 0
      · have haborted : t.readTimeoutTimer.aborted ≠ 0 := by
          intro haborted
          rw [h.stopped_iff.mpr ⟨hop, hexpired, haborted⟩] at hstopped
          cases hstopped
        exact h.goesOn hstopped (@Steps.reset t .read (Nat.pos_of_ne_zero haborted))
          rfl (.failed hop hread)
      · refine h.goesOn hstopped (@Steps.timeout t .read (Nat.pos_of_ne_zero hexpired))
          rfl ?_
        rw [cancelSocket_of_none]
        · exact .failed hop hread
        · exact hop

theorem Doomed.not_returns (h : ReadUnder deadline stream t) (hd : Doomed deadline t) :
    ¬ Returns t readResult stream :=
  Inevitable.avoided (B := fun t => ReadUnder deadline stream t ∧ Doomed deadline t)
    (fun _ hb => doomed_goesOn hb.1 hb.2) ⟨h, hd⟩

end

/-! ## A read of which all has come -/

section
variable {deadline : Nat} {stream : Bytes}

/-- `Settled.not_pending` for the job of a read. -/
theorem ReadUnder.not_pending (h : ReadUnder deadline stream t)
    (hs : Settled [] stream stream.length t) {direction : Direction} {total maxSize : Nat} :
    t.operation ≠ some ⟨direction, total, .pending maxSize⟩ :=
  @Settled.not_pending (.read stream stream.length) t hs h.reached direction total maxSize

/-- When all is read the clock need not go on. -/
theorem Settled.busy (hs : Settled [] stream stream.length t)
    (h : ReadUnder deadline stream t) {action : Action} (hpaced : pacedStep action t = some t')
    (duration : Nat) : action ≠ .tick duration := by
  rintro rfl
  obtain ⟨_, hstopped, _, htick⟩ := step_of_pacedStep hpaced
  obtain ⟨_, _, _, _, hop, _⟩ := h.of_calm hstopped (htick duration rfl).2.1
  exact h.not_pending hs hop

theorem Settled.stopped_of_stuck (hs : Settled [] stream stream.length t)
    (h : ReadUnder deadline stream t) (hstuck : Stuck pacedStep t) : t.stopped = true := by
  by_contra hstopped
  refine hstopped (Net.stopped_of_stuck h.reached fun action => ?_)
  have hnone := hstuck action
  unfold pacedStep at hnone
  rw [if_neg hstopped] at hnone
  cases action with
  | tick duration => rfl
  | fail ec =>
    cases hfail : busyStep (.fail ec) t with
    | none => rfl
    | some t' =>
      cases steps_of_step h.reached.fits (step_of_busyStep hfail).1 with
      | fail ec hop => exact absurd hop (h.not_pending hs)
  | _ => exact hnone

theorem Settled.returns (hs : Settled [] stream stream.length t)
    (h : ReadUnder deadline stream t) : Returns t readResult stream := by
  refine Inevitable.of_measure
    (I := fun t => ReadUnder deadline stream t ∧ Settled [] stream stream.length t) work
    ?_ ?_ ⟨h, hs⟩
  · rintro action t t' ⟨h, hs⟩ hpaced
    have hsteps := steps_of_step h.reached.fits (step_of_pacedStep hpaced).1
    have hs' := @Settled.step (.read stream stream.length) t t' action hs h.reached hsteps
    exact ⟨⟨h.step hsteps, hs'⟩, hsteps.work_lt (hs.busy h hpaced)⟩
  · rintro t ⟨h, hs⟩ hstuck
    have hstopped := hs.stopped_of_stuck h hstuck
    have hd := @Settled.done (.read stream stream.length) t hs h.reached (stopped_iff.mp hstopped).1
    refine ⟨hstopped, ?_⟩
    rw [readResult, hd.readError, hd.buffer_eq]
    exact congrArg Except.ok List.take_length

end

/-! ## `do_read` -/

theorem readUnder_prepareRead (now readTimeout : Nat) (arrivals : List Arrival) :
    ReadUnder (now + readTimeout * ticksPerSecond) (chunks arrivals)
      ((new now true arrivals readTimeout).prepareRead (chunks arrivals).length) :=
  ⟨reached_prepareRead now true arrivals readTimeout _, rfl, rfl⟩

/-- Nothing is read, so the timeout does not matter. -/
theorem doRead_nothing (now readTimeout : Nat) :
    Returns ((new now true [] readTimeout).prepareRead 0) readResult [] := by
  refine Settled.returns ?_ (readUnder_prepareRead now readTimeout [])
  exact ⟨rfl, Nat.le_refl _, rfl⟩

theorem doRead_in_time {now readTimeout : Nat} {arrivals : List Arrival}
    (h : ∀ arrival ∈ arrivals, max now arrival.time < now + readTimeout * ticksPerSecond) :
    Returns ((new now true arrivals readTimeout).prepareRead (chunks arrivals).length) readResult
      (chunks arrivals) := by
  cases arrivals with
  | nil => exact doRead_nothing now readTimeout
  | cons arrival arrivals =>
    refine Timely.returns {
      under := readUnder_prepareRead now readTimeout _
      now_lt := Nat.lt_of_le_of_lt (Nat.le_max_left _ _) (h arrival List.mem_cons_self)
      arrivals_lt := fun a ha => Nat.lt_of_le_of_lt (Nat.le_max_right _ _) (h a ha)
      notExpired := rfl
      readError := rfl
      notFailed := fun total ec n he => ?_ }
    exact Part.start_ne_failed _ _ _ (congrArg Operation.part (Option.some.inj he))

theorem doRead_late {now readTimeout : Nat} {arrivals : List Arrival} {late : Arrival}
    (hmem : late ∈ arrivals) (hlate : now + readTimeout * ticksPerSecond ≤ max now late.time) :
    ¬ Returns ((new now true arrivals readTimeout).prepareRead (chunks arrivals).length) readResult
      (chunks arrivals) := by
  have hunder := readUnder_prepareRead now readTimeout arrivals
  have hcases : now + readTimeout * ticksPerSecond ≤ now ∨
      now + readTimeout * ticksPerSecond ≤ late.time := by omega
  rcases hcases with hdue | hlate
  · -- The timer has no time at all.
    have hlength : (chunks arrivals).length ≠ 0 := Nat.ne_of_gt (chunks_pos hmem)
    have hop : ((new now true arrivals readTimeout).prepareRead (chunks arrivals).length).operation =
        some ⟨.read, 0, .pending (chunks arrivals).length⟩ :=
      congrArg (fun part => some (Operation.mk .read 0 part)) (if_neg hlength)
    have hexpire := @Steps.expire ((new now true arrivals readTimeout).prepareRead
      (chunks arrivals).length) .read ⟨hdue, Nat.one_pos⟩
    have hpaced := pacedStep_of_steps (hunder.not_stopped hop) hexpire rfl
    intro h
    exact Doomed.not_returns (hunder.step hexpire) (.expired hop Nat.one_pos) (h.next hpaced)
  · refine Doomed.not_returns hunder ?_
    exact .waiting rfl (Part.start_ne_failed _) Nat.one_pos rfl (Nat.le_add_right _ _)
      ⟨late, hmem, hlate⟩

/-- A read returns all that comes exactly when it all comes within the timeout
from when the timer was made, however short the pauses are. -/
theorem doRead_returns_iff (now readTimeout : Nat) (arrivals : List Arrival) :
    Returns ((new now true arrivals readTimeout).prepareRead (chunks arrivals).length) readResult
      (chunks arrivals) ↔
      ∀ arrival ∈ arrivals, max now arrival.time < now + readTimeout * ticksPerSecond := by
  constructor
  · intro h late hmem
    by_contra hlate
    exact doRead_late hmem (Nat.le_of_not_lt hlate) h
  · exact doRead_in_time

/-- Each arrival comes within the limit from the one before it. -/
def Steady (limit : Nat) : Nat → List Arrival → Prop
  | _, [] => True
  | last, arrival :: arrivals =>
    last ≤ arrival.time ∧ arrival.time < last + limit ∧ Steady limit arrival.time arrivals

/-- One byte after six seconds and one after twelve, where ten are allowed. -/
theorem steady_read_fails :
    ¬ ∀ (now readTimeout : Nat) (arrivals : List Arrival),
      Steady (readTimeout * ticksPerSecond) now arrivals →
      Returns ((new now true arrivals readTimeout).prepareRead (chunks arrivals).length) readResult
        (chunks arrivals) := by
  intro h
  have hsteady : Steady (10 * ticksPerSecond) 0 [⟨6 * ticksPerSecond, [1], List.cons_ne_nil _ _⟩,
      ⟨12 * ticksPerSecond, [2], List.cons_ne_nil _ _⟩] := by
    simp [Steady, ticksPerSecond]
  refine @doRead_late 0 10 _ ⟨12 * ticksPerSecond, [2], List.cons_ne_nil _ _⟩ (by simp) ?_
    (h 0 10 _ hsteady)
  decide

end Bittorrent.Net

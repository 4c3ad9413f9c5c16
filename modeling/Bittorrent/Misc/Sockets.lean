import Bittorrent.Misc.Transfers

/-! The socket the sessions are about, and the handlers behind it. Every order
of the handlers comes to one of the ways an operation on that socket can go, and
each of those ways is what some order of them comes to (`transfers_refine_iff`). -/

namespace Bittorrent.Net

open Lib.Runs TcpTransfer

variable {job : Job} {t t' : TcpTransfer}

theorem Reached.leads (h : Reached job t) (hleads : Leads TcpTransfer.step t t') : Reached job t' := by
  obtain ⟨actions, hrun⟩ := hleads
  exact h.run hrun

theorem leads_of_steps {action : Action} (h : Steps t action t') : Leads TcpTransfer.step t t' :=
  .single h.step

/-! ## All that the peer sends arrives -/

/-- The clock goes on until everything has arrived. -/
theorem leads_arrived (t : TcpTransfer) : ∃ now, Leads TcpTransfer.step t
    { t with now := now, arrivals := [], available := t.available ++ chunks t.arrivals } := by
  obtain ⟨arrivals, harrivals⟩ : ∃ arrivals, t.arrivals = arrivals := ⟨_, rfl⟩
  induction arrivals generalizing t with
  | nil =>
    refine ⟨t.now, ?_⟩
    have hsame : { t with now := t.now, arrivals := [], available := t.available ++ chunks t.arrivals } = t := by
      rw [harrivals]
      show { t with arrivals := [], available := t.available ++ [] } = t
      rw [List.append_nil, ← harrivals]
    rw [hsame]
    exact .refl _ _
  | cons arrival arrivals ih =>
    have htick := leads_of_steps (Steps.tick (t := t) arrival.time)
    have harrive := leads_of_steps (Steps.arrive (t := { t with now := t.now + arrival.time })
      harrivals (Nat.le_add_left _ _))
    obtain ⟨now, hrest⟩ := ih
      { t with
        now := t.now + arrival.time
        arrivals := arrivals
        available := t.available ++ arrival.chunk } rfl
    refine ⟨now, ?_⟩
    have hchunks : t.available ++ chunks t.arrivals = t.available ++ arrival.chunk ++ chunks arrivals := by
      rw [harrivals, List.append_assoc]
      rfl
    rw [hchunks]
    exact (htick.trans harrive).trans hrest

/-! ## The request is written -/

/-- What is pending of a write goes through, part after part. -/
theorem leads_reading (left : Nat) : ∀ {t : TcpTransfer} {total maxSize : Nat}, Reached job t →
    t.operation = some ⟨.write, total, .pending maxSize⟩ → t.request.length - total = left →
    ∃ t', Leads TcpTransfer.step t t' ∧ t'.arrivals = t.arrivals ∧ t'.available = t.available ∧
      t'.operation = some ⟨.read, 0, .start job.length⟩ := by
  induction left using Nat.strong_induction_on with
  | _ left ih =>
    intro t total maxSize hr hop hleft
    obtain ⟨hmax, hpos⟩ := hr.fits.pending_pos hop
    dsimp only [size] at hmax
    have hsend := Steps.send hop hpos (Nat.le_refl maxSize)
    have hrequest := (hr.stage.of_write hop).serves.request
    have hlength := (hr.stage.of_write hop).serves.length
    by_cases hall : total + maxSize = t.request.length
    · refine ⟨_, (leads_of_steps hsend).trans (leads_of_steps (.writeDone rfl hall)), rfl, rfl, ?_⟩
      show some _ = _
      rw [hlength]
    · have hlt : total + maxSize < t.request.length := by omega
      have hmore := Steps.writeMore (t := { t with
        operation := some ⟨.write, total, .completed none maxSize⟩
        sent := t.sent ++ (t.request.drop total).take maxSize }) rfl (Nat.ne_of_gt hpos) hlt
      have hpart : some (Operation.mk .write (total + maxSize)
            (.start (min defaultMaxTransferSize (t.request.length - (total + maxSize))))) =
          some ⟨.write, total + maxSize,
            .pending (min defaultMaxTransferSize (t.request.length - (total + maxSize)))⟩ := by
        rw [Part.start, if_neg (Nat.ne_of_gt (Nat.lt_min.mpr ⟨by decide, by omega⟩))]
      obtain ⟨t', hleads, harrivals, havailable, hop'⟩ := ih (t.request.length - (total + maxSize))
        (by omega) ((hr.step hsend.step).step hmore.step) hpart rfl
      exact ⟨t', ((leads_of_steps hsend).trans (leads_of_steps hmore)).trans hleads, harrivals,
        havailable, hop'⟩

/-! ## Operations end -/

/-- The error a pending part ends with is the error of its operation. -/
theorem leads_failed (hr : Reached job t) {direction : Direction} {total maxSize : Nat}
    (hop : t.operation = some ⟨direction, total, .pending maxSize⟩) (ec : ErrorCode) :
    ∃ t', Leads TcpTransfer.step t t' ∧ t'.operation = none ∧ t'.remaining = t.remaining ∧
      t'.ended = t.ended ++ [(direction, some ec)] := by
  obtain ⟨hmax, hpos⟩ := hr.fits.pending_pos hop
  have hfail := leads_of_steps (Steps.fail ec hop)
  cases direction with
  | write =>
    have hlt : total + 0 < t.request.length := Nat.lt_of_lt_of_le (Nat.add_lt_add_left hpos _) hmax
    exact ⟨_, hfail.trans (leads_of_steps (.writeFailed rfl hlt)), rfl, rfl, rfl⟩
  | read =>
    have hlt : total + 0 < t.expectedResponseLength :=
      Nat.lt_of_lt_of_le (Nat.add_lt_add_left hpos _) hmax
    exact ⟨_, hfail.trans (leads_of_steps (.readFailed rfl hlt)), rfl, rfl, rfl⟩

/-- A read takes as much as there is of what it is asked for, and then ends
with all of it or with the error. -/
theorem leads_read (hr : Reached job t) (hop : t.operation = some ⟨.read, 0, .start job.length⟩)
    (harrivals : t.arrivals = []) {n : Nat} (hn : n ≤ job.length)
    (havailable : n ≤ t.available.length) (ec : ErrorCode) :
    ∃ t', Leads TcpTransfer.step t t' ∧ t'.operation = none ∧
      t'.remaining = t.available.drop n ∧
      t'.ended = t.ended ++ [(.read, if n = job.length then none else some ec)] := by
  have hlength := (hr.stage.of_read hop).written.serves.length
  have hremaining : t.remaining = t.available := by
    rw [TcpTransfer.remaining, harrivals]
    exact List.append_nil _
  by_cases hempty : job.length = 0
  · -- Nothing is asked for, and the first part is over at once.
    obtain rfl : n = 0 := Nat.le_zero.mp (hempty ▸ hn)
    rw [hempty] at hop hlength
    refine ⟨_, leads_of_steps (.readDone hop hlength.symm), rfl, hremaining, ?_⟩
    rw [if_pos hempty.symm]
  · have hpart : Part.start job.length = .pending job.length := if_neg hempty
    rw [hpart] at hop
    rcases Nat.eq_zero_or_pos n with rfl | hpos
    · obtain ⟨t', hleads, hop', hrest, hended⟩ := leads_failed hr hop ec
      rw [if_neg (Ne.symm hempty)]
      exact ⟨t', hleads, hop', hrest.trans hremaining, hended⟩
    · have hreceive := Steps.receive hop hpos hn havailable
      have hrest : t.available.drop n ++ chunks t.arrivals = t.available.drop n := by
        rw [harrivals]
        exact List.append_nil _
      by_cases hall : n = job.length
      · have hdone := Steps.readDone (t := { t with
          operation := some ⟨.read, 0, .completed none n⟩
          available := t.available.drop n
          buffer := t.buffer.take 0 ++ t.available.take n ++ t.buffer.drop (0 + n) }) rfl
          ((Nat.zero_add n).trans (hall.trans hlength.symm))
        refine ⟨_, (leads_of_steps hreceive).trans (leads_of_steps hdone), rfl, hrest, ?_⟩
        rw [if_pos hall]
      · have hmore := Steps.readMore (t := { t with
          operation := some ⟨.read, 0, .completed none n⟩
          available := t.available.drop n
          buffer := t.buffer.take 0 ++ t.available.take n ++ t.buffer.drop (0 + n) }) rfl
          (Nat.ne_of_gt hpos) (show 0 + n < t.expectedResponseLength by omega)
        have hpart' : some (Operation.mk .read (0 + n) (.start (t.expectedResponseLength - (0 + n)))) =
            some ⟨.read, 0 + n, .pending (t.expectedResponseLength - (0 + n))⟩ := by
          rw [Part.start, if_neg (by omega)]
        obtain ⟨t', hleads, hop', hrest', hended⟩ :=
          leads_failed ((hr.step hreceive.step).step hmore.step) hpart' ec
        rw [if_neg hall]
        exact ⟨t', ((leads_of_steps hreceive).trans (leads_of_steps hmore)).trans hleads, hop',
          hrest'.trans hrest, hended⟩

/-! ## The timers are idle in the end -/

/-- When no operation is under way the queued handlers change nothing that counts. -/
theorem leads_stopped (hr : Reached job t) (hop : t.operation = none) :
    ∃ t', Leads TcpTransfer.step t t' ∧ t'.stopped = true ∧ t'.remaining = t.remaining ∧
      t'.ended = t.ended := by
  obtain ⟨n, hn⟩ : ∃ n, work t = n := ⟨_, rfl⟩
  induction n using Nat.strong_induction_on generalizing t with
  | _ n ih =>
    by_cases hqueued : ∃ direction, 0 < (t.timer direction).expired ∨ 0 < (t.timer direction).aborted
    · have goes : ∀ {action : Action} {t' : TcpTransfer}, Steps t action t' →
          (∀ duration, action ≠ .tick duration) → t'.operation = none → t'.remaining = t.remaining →
          t'.ended = t.ended → ∃ t', Leads TcpTransfer.step t t' ∧ t'.stopped = true ∧
            t'.remaining = t.remaining ∧ t'.ended = t.ended := by
        intro action t' hs hbusy hop' hrest hended
        obtain ⟨t'', hleads, hstopped, hrest', hended'⟩ :=
          ih _ (hn ▸ hs.work_lt hbusy) (hr.step hs.step) hop' rfl
        exact ⟨t'', (leads_of_steps hs).trans hleads, hstopped, hrest'.trans hrest,
          hended'.trans hended⟩
      obtain ⟨direction, hexpired | haborted⟩ := hqueued
      · have hs := Steps.timeout hexpired
        have hnone : (t.setTimer direction { t.timer direction with
            expired := (t.timer direction).expired - 1 }).operation = none := by
          cases direction <;> exact hop
        rw [cancelSocket_of_none hnone] at hs
        refine goes hs nofun ?_ ?_ ?_ <;> cases direction <;> first | exact hop | rfl
      · refine goes (.reset haborted) nofun ?_ ?_ ?_ <;> cases direction <;> first | exact hop | rfl
    · refine ⟨t, .refl _ _, stopped_iff.mpr ⟨hop, ?_, ?_⟩, rfl, rfl⟩
      · have hwait := hr.waits.of_none hop .read
        rw [Timer.idle_iff]
        refine ⟨hwait, ?_, ?_⟩
        · exact Nat.eq_zero_of_not_pos fun h => hqueued ⟨.read, .inl h⟩
        · exact Nat.eq_zero_of_not_pos fun h => hqueued ⟨.read, .inr h⟩
      · have hwait := hr.waits.of_none hop .write
        rw [Timer.idle_iff]
        refine ⟨hwait, ?_, ?_⟩
        · exact Nat.eq_zero_of_not_pos fun h => hqueued ⟨.write, .inl h⟩
        · exact Nat.eq_zero_of_not_pos fun h => hqueued ⟨.write, .inr h⟩

/-! ## What is returned -/

/-- How the operations ended tells what the call returns. -/
theorem Reached.readResult_of_ended (hr : Reached job t) (hop : t.operation = none)
    {error : Option ErrorCode} (hended : t.ended = job.ended ++ [(.read, error)]) :
    t.writeError = job.writeError ∧
      t.readResult = error.elim (.ok (job.stream.take job.length)) .error := by
  have hlast : t.ended.getLast? = some (.read, error) := by rw [hended, List.getLast?_concat]
  unfold readResult
  rcases hr.stage.of_none hop with ⟨ec, hf⟩ | ⟨ec, hf⟩ | hd
  · rw [hf.ended] at hlast
    cases hlast
  · rw [hf.ended, List.getLast?_concat] at hlast
    cases hlast
    refine ⟨hf.written.writeError, ?_⟩
    rw [hf.readError]
    rfl
  · rw [hd.ended, List.getLast?_concat] at hlast
    cases hlast
    refine ⟨hd.written.writeError, ?_⟩
    rw [hd.readError, hd.buffer_eq]
    rfl

theorem Reached.writeError_of_ended (hr : Reached job t) (hop : t.operation = none) {ec : ErrorCode}
    (hended : t.ended = [(.write, some ec)]) : t.writeError = some ec ∧ t.remaining = job.stream := by
  have hlast : t.ended.getLast? = some (.write, some ec) := by rw [hended]; rfl
  rcases hr.stage.of_none hop with ⟨ec, hf⟩ | ⟨ec, hf⟩ | hd
  · rw [hf.ended] at hlast
    cases hlast
    exact ⟨hf.writeError, hf.remaining⟩
  · rw [hf.ended, List.getLast?_concat] at hlast
    cases hlast
  · rw [hd.ended, List.getLast?_concat] at hlast
    cases hlast

/-- A read that begins can go every way a read of the socket can. -/
theorem leads_socket_read (hr : Reached job t)
    (hop : t.operation = some ⟨.read, 0, .start job.length⟩) (harrivals : t.arrivals = [])
    (event : IoEvent) :
    ∃ t', Leads TcpTransfer.step t t' ∧ t'.stopped = true ∧ t'.writeError = job.writeError ∧
      (Socket.going true job.stream event).read job.length =
        (t'.readResult, .going true t'.remaining event) := by
  have hreading := hr.stage.of_read hop
  have hstream : job.stream = t.available := by
    have := hreading.stream
    rw [Part.transferred_start, TcpTransfer.remaining, harrivals] at this
    simpa [chunks] using this
  obtain ⟨got, hgot⟩ : ∃ got, job.stream.take (min job.length event.arrived) = got := ⟨_, rfl⟩
  have harriving : (Socket.going true job.stream event).arriving job.length = got := hgot
  have hn : got.length ≤ job.length := by
    rw [← hgot, List.length_take]
    omega
  have hlen : got.length ≤ t.available.length := by
    rw [← hgot, hstream]
    exact List.length_take_le' _ _
  obtain ⟨t₁, hleads₁, hop₁, hrest₁, hended₁⟩ :=
    leads_read hr hop harrivals hn hlen event.readError
  have hr₁ := hr.leads hleads₁
  obtain ⟨t₂, hleads₂, hstopped, hrest₂, hended₂⟩ := leads_stopped hr₁ hop₁
  obtain ⟨hwriteError, hresult⟩ := (hr₁.leads hleads₂).readResult_of_ended (stopped_iff.mp hstopped).1
    (hended₂.trans (hended₁.trans (congrArg (· ++ _) hreading.ended)))
  refine ⟨t₂, hleads₁.trans hleads₂, hstopped, hwriteError, ?_⟩
  have hafter : { Socket.going true job.stream event with
      incoming := job.stream.drop got.length
      events := (Socket.going true job.stream event).later } = .going true t₂.remaining event := by
    rw [hrest₂, hrest₁, ← hstream]
    rfl
  unfold Socket.read
  rw [if_neg (by simp [Socket.going]), harriving]
  dsimp only
  rw [hresult]
  split
  · next hall =>
    have hmin : min job.length event.arrived = job.length := by
      have := hall
      rw [← hgot, List.length_take] at this
      omega
    rw [hmin] at hgot
    rw [hgot]
    exact congrArg (Prod.mk _) hafter
  · exact congrArg (Prod.mk _) hafter

section
variable (now readTimeout length : Nat) (arrivals : List Arrival)

/-- Each way a read of the socket can go is taken by some run of the handlers. -/
theorem doRead_attains (isOpen : Bool) (event : IoEvent) : ∃ actions t,
    (new now isOpen arrivals readTimeout).doRead length actions =
      some (((Socket.going isOpen (chunks arrivals) event).read length).1, t) ∧
    ((Socket.going isOpen (chunks arrivals) event).read length).2 = .going isOpen t.remaining event := by
  cases isOpen with
  | false => exact ⟨[], _, rfl, rfl⟩
  | true =>
    obtain ⟨later, harrived⟩ := leads_arrived ((new now true arrivals readTimeout).prepareRead length)
    obtain ⟨t', hleads, hstopped, -, hread⟩ := leads_socket_read
      ((reached_prepareRead now true arrivals readTimeout length).leads harrived) rfl rfl event
    obtain ⟨actions, hrun⟩ := harrived.trans hleads
    refine ⟨actions, t', ?_, congrArg Prod.snd hread⟩
    unfold doRead
    rw [if_neg (by simp [new]), hrun]
    show (if t'.stopped then some (t'.readResult, t') else none) = _
    rw [if_pos hstopped]
    exact congrArg (fun r => some (r, t')) (congrArg Prod.fst hread).symm

/-- Each way a transfer on the socket can go is taken by some run of the handlers. -/
theorem doTransfer_attains {request : Bytes} (hrequest : request ≠ []) (isOpen : Bool)
    (event : IoEvent) : ∃ actions t,
    (new now isOpen arrivals readTimeout).doTransfer request length actions =
      some (((Socket.going isOpen (chunks arrivals) event).transfer length).1, t) ∧
    ((Socket.going isOpen (chunks arrivals) event).transfer length).2 =
      .going isOpen t.remaining event := by
  cases isOpen with
  | false => exact ⟨[], _, rfl, rfl⟩
  | true =>
    have hr := reached_prepareTransfer now true arrivals readTimeout request length
    have hpart : ((new now true arrivals readTimeout).prepareTransfer request length).operation =
        some ⟨.write, 0, .pending (min defaultMaxTransferSize request.length)⟩ := by
      show some (Operation.mk .write 0 (.start (min defaultMaxTransferSize request.length))) = _
      rw [Part.start, if_neg (Nat.ne_of_gt
        (Nat.lt_min.mpr ⟨by decide, List.length_pos_iff.mpr hrequest⟩))]
    have hcall : ∀ {t' : TcpTransfer}, Leads TcpTransfer.step
        ((new now true arrivals readTimeout).prepareTransfer request length) t' → t'.stopped = true →
        ∃ actions, (new now true arrivals readTimeout).doTransfer request length actions =
          some (t'.transferResult, t') := by
      intro t' hleads hstopped
      obtain ⟨actions, hrun⟩ := hleads
      refine ⟨actions, ?_⟩
      unfold doTransfer
      rw [if_neg (by simp [new]), hrun]
      exact if_pos hstopped
    cases hwrite : event.writeError with
    | some ec =>
      have hgoing : (Socket.going true (chunks arrivals) event).transfer length =
          (.error ec, .going true (chunks arrivals) event) := by
        have hwritten : (Socket.going true (chunks arrivals) event).write =
          (some ec, .going true (chunks arrivals) event) := congrArg (Prod.mk · _) hwrite
        rw [Socket.transfer, hwritten]
        rfl
      obtain ⟨t₁, hleads₁, hop₁, hrest₁, hended₁⟩ := leads_failed hr hpart ec
      obtain ⟨t₂, hleads₂, hstopped, hrest₂, hended₂⟩ := leads_stopped (hr.leads hleads₁) hop₁
      obtain ⟨actions, hdo⟩ := hcall (hleads₁.trans hleads₂) hstopped
      obtain ⟨herror, hrest⟩ := (hr.leads (hleads₁.trans hleads₂)).writeError_of_ended
        (stopped_iff.mp hstopped).1 (hended₂.trans hended₁)
      refine ⟨actions, t₂, ?_, ?_⟩
      · rw [hdo, hgoing, transferResult, herror]
      · rw [hgoing, hrest]
        rfl
    | none =>
      have hwritten : (Socket.going true (chunks arrivals) event).write =
        (none, .going true (chunks arrivals) event) := congrArg (Prod.mk · _) hwrite
      have hgoing : (Socket.going true (chunks arrivals) event).transfer length =
          (Socket.going true (chunks arrivals) event).read length := by
        rw [Socket.transfer, hwritten]
        rfl
      obtain ⟨later, harrived⟩ := leads_arrived
        ((new now true arrivals readTimeout).prepareTransfer request length)
      obtain ⟨t₁, hleads₁, harrivals₁, -, hop₁⟩ := leads_reading _ (hr.leads harrived) hpart rfl
      obtain ⟨t₂, hleads₂, hstopped, herror, hread⟩ := leads_socket_read
        ((hr.leads harrived).leads hleads₁) hop₁ harrivals₁ event
      obtain ⟨actions, hdo⟩ := hcall ((harrived.trans hleads₁).trans hleads₂) hstopped
      refine ⟨actions, t₂, ?_, ?_⟩
      · rw [hdo, hgoing, transferResult, herror]
        exact congrArg (fun r => some (r, t₂)) (congrArg Prod.fst hread).symm
      · rw [hgoing]
        exact congrArg Prod.snd hread

/-- An operation on the socket goes one of the ways the sessions reckon with,
and each of them is one its handlers can take. -/
theorem transfers_refine_iff (isOpen : Bool) {request : Bytes} (hrequest : request ≠ [])
    (result : Except ErrorCode Bytes) (rest : Bytes) :
    ((∃ actions t, (new now isOpen arrivals readTimeout).doTransfer request length actions =
        some (result, t) ∧ t.remaining = rest) ↔
      ∃ event, (Socket.going isOpen (chunks arrivals) event).transfer length =
        (result, .going isOpen rest event)) ∧
    ((∃ actions t, (new now isOpen arrivals readTimeout).doRead length actions =
        some (result, t) ∧ t.remaining = rest) ↔
      ∃ event, (Socket.going isOpen (chunks arrivals) event).read length =
        (result, .going isOpen rest event)) := by
  refine ⟨⟨?_, ?_⟩, ?_, ?_⟩
  · rintro ⟨actions, t, h, rfl⟩
    exact doTransfer_refines h
  · rintro ⟨event, h⟩
    obtain ⟨actions, t, hdo, hrest⟩ :=
      doTransfer_attains now readTimeout length arrivals hrequest isOpen event
    rw [h] at hdo hrest
    exact ⟨actions, t, hdo, (congrArg Socket.incoming hrest).symm⟩
  · rintro ⟨actions, t, h, rfl⟩
    exact doRead_refines h
  · rintro ⟨event, h⟩
    obtain ⟨actions, t, hdo, hrest⟩ := doRead_attains now readTimeout length arrivals isOpen event
    rw [h] at hdo hrest
    exact ⟨actions, t, hdo, (congrArg Socket.incoming hrest).symm⟩

end

theorem transfers_refine_iff_one :
    ((∃ actions t, (new 0 true [] 10).doTransfer [7] 1 actions = some (.error .eof, t) ∧
        t.remaining = []) ↔
      ∃ event, (Socket.going true (chunks []) event).transfer 1 = (.error .eof, .going true [] event)) ∧
    ((∃ actions t, (new 0 true [] 10).doRead 1 actions = some (.error .eof, t) ∧
        t.remaining = []) ↔
      ∃ event, (Socket.going true (chunks []) event).read 1 = (.error .eof, .going true [] event)) :=
  transfers_refine_iff 0 10 1 [] true (List.cons_ne_nil 7 []) (.error .eof) []

end Bittorrent.Net

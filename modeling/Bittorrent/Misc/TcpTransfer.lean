import Bittorrent.Basic

/-! A connection as its user sees it: the bytes the peer sends and, for each
operation on the socket, how it goes. A read takes what arrives and completes
when that is all it asked for; otherwise a timeout or an error ends it, and the
bytes that did arrive are gone. -/

namespace Bittorrent.Net

inductive ErrorCode where
  | operationAborted
  | notConnected
  | eof
  | other (message : String)
  deriving DecidableEq

def ErrorCode.message : ErrorCode → String
  | operationAborted => "Operation aborted."
  | notConnected => "Transport endpoint is not connected"
  | eof => "End of file"
  | other message => message

/-- How one operation goes: the error of a connect or write, the number of
bytes that arrive for a read, and what ends a read that has not got enough. -/
structure IoEvent where
  writeError : Option ErrorCode
  arrived : Nat
  readError : ErrorCode

/-- Nothing arrives before the timeout. -/
def IoEvent.timeout : IoEvent := ⟨none, 0, .operationAborted⟩

/-- `events` tells for each operation to come how it goes. -/
structure Socket where
  isOpen : Bool
  incoming : Bytes
  events : Nat → IoEvent

namespace Socket

def event (s : Socket) : IoEvent := s.events 0

/-- The events after the next one. -/
def later (s : Socket) : Nat → IoEvent := fun n => s.events (n + 1)

/-- The socket is open afterwards even when the connection failed. -/
def connect (s : Socket) : Option ErrorCode × Socket :=
  (s.event.writeError, { s with isOpen := true, events := s.later })

def write (s : Socket) : Option ErrorCode × Socket :=
  (s.event.writeError, { s with events := s.later })

/-- What a read of `n` bytes takes from the stream. -/
def arriving (s : Socket) (n : Nat) : Bytes :=
  if s.isOpen then s.incoming.take (min n s.event.arrived) else []

/-- `TcpTransfer::do_read` -/
def read (s : Socket) (n : Nat) : Except ErrorCode Bytes × Socket :=
  if !s.isOpen then (.error .notConnected, s)
  else
    let got := s.arriving n
    let after := { s with incoming := s.incoming.drop got.length, events := s.later }
    if got.length = n then (.ok got, after) else (.error s.event.readError, after)

/-- `TcpTransfer::do_transfer` -/
def transfer (s : Socket) (n : Nat) : Except ErrorCode Bytes × Socket :=
  if !s.isOpen then (.error .notConnected, s)
  else
    match s.write.1 with
    | some e => (.error e, s.write.2)
    | none => s.write.2.read n

/-- Bytes leave the stream in order, and no others than those that arrived. -/
theorem read_incoming (s : Socket) (n : Nat) :
    s.incoming = s.arriving n ++ (s.read n).2.incoming := by
  unfold read arriving
  cases ho : s.isOpen with
  | false => simp
  | true =>
    have hdrop : s.incoming = s.incoming.take (min n s.event.arrived) ++
        s.incoming.drop (s.incoming.take (min n s.event.arrived)).length := by
      rw [List.length_take]
      rcases Nat.le_total (min n s.event.arrived) s.incoming.length with h | h
      · rw [Nat.min_eq_left h, List.take_append_drop]
      · rw [Nat.min_eq_right h, List.drop_length, List.append_nil, List.take_of_length_le h]
    simp only [Bool.not_true, Bool.false_eq_true, if_false, if_true]
    split <;> exact hdrop

theorem arriving_length_le (s : Socket) (n : Nat) : (s.arriving n).length ≤ n := by
  unfold arriving
  split
  · rw [List.length_take]
    omega
  · exact Nat.zero_le n

/-- A read returns exactly what it was asked for. -/
theorem read_ok {s : Socket} {n : Nat} {got : Bytes} (h : (s.read n).1 = .ok got) :
    got = s.arriving n ∧ got.length = n := by
  unfold read at h
  split at h
  · cases h
  · dsimp only at h
    split at h
    · next hl =>
      obtain rfl := Except.ok.inj h
      exact ⟨rfl, hl⟩
    · cases h

/-- When all bytes arrive the read returns them. -/
theorem read_of_arriving {s : Socket} {n : Nat} (ho : s.isOpen = true)
    (h : (s.arriving n).length = n) : (s.read n).1 = .ok (s.arriving n) := by
  unfold read
  rw [if_neg (by simp [ho])]
  dsimp only
  rw [if_pos h]

@[simp] theorem read_isOpen (s : Socket) (n : Nat) : (s.read n).2.isOpen = s.isOpen := by
  unfold read
  split
  · rfl
  · dsimp only
    split <;> rfl

/-- Nothing hinders the operations, and a read gets all the peer has sent. -/
structure Prompt (s : Socket) : Prop where
  isOpen : s.isOpen = true
  written : ∀ n, (s.events n).writeError = none
  arrived : ∀ n, s.incoming.length ≤ (s.events n).arrived

theorem Prompt.write {s : Socket} (h : Prompt s) : Prompt s.write.2 :=
  ⟨h.isOpen, fun n => h.written (n + 1), fun n => h.arrived (n + 1)⟩

theorem Prompt.read {s : Socket} (h : Prompt s) (n : Nat) : Prompt (s.read n).2 := by
  have hincoming : (s.read n).2.incoming.length ≤ s.incoming.length := by
    rw [congrArg List.length (s.read_incoming n), List.length_append]
    exact Nat.le_add_left _ _
  have hevents : (s.read n).2.events = s.later := by
    unfold Socket.read
    rw [if_neg (by simp [h.isOpen])]
    dsimp only
    split <;> rfl
  refine ⟨(read_isOpen s n).trans h.isOpen, fun k => ?_, fun k => ?_⟩
  · rw [hevents]
    exact h.written (k + 1)
  · rw [hevents]
    exact Nat.le_trans hincoming (h.arrived (k + 1))

/-- A read of what is in front of the stream. -/
theorem Prompt.read_front {s : Socket} (h : Prompt s) {got rest : Bytes}
    (hin : s.incoming = got ++ rest) :
    (s.read got.length).1 = .ok got ∧ (s.read got.length).2.incoming = rest := by
  have harr : s.arriving got.length = got := by
    have hle : got.length ≤ s.event.arrived := by
      refine Nat.le_trans ?_ (h.arrived 0)
      rw [hin, List.length_append]
      exact Nat.le_add_right _ _
    rw [arriving, if_pos h.isOpen, Nat.min_eq_left hle, hin, List.take_left]
  have hrest := s.read_incoming got.length
  rw [harr] at hrest
  refine ⟨?_, List.append_cancel_left (hrest.symm.trans hin)⟩
  rw [read_of_arriving h.isOpen (by rw [harr]), harr]

theorem read_events (s : Socket) (n : Nat) :
    (s.read n).2.events = s.events ∨ (s.read n).2.events = s.later := by
  unfold read
  split
  · exact Or.inl rfl
  · dsimp only
    split
    · exact Or.inr rfl
    · exact Or.inr rfl

end Socket

end Bittorrent.Net

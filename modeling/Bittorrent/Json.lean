import Bittorrent.Basic
import Bittorrent.Lib.Decimal
import Bittorrent.Lib.OrderedMap
import Bittorrent.Lib.Utf8

/-! The part of `nlohmann::json` the program relies on: the value kinds that
bencoded data can produce, typed access to them, and the two dumps (integers,
and strings in the strict mode that rejects bytes which are not UTF-8). The
string dump is a table-driven automaton; `dumpEscaped_ok_iff` gives its meaning. -/

namespace Bittorrent

open Lib Lib.OrderedMap

/-- An object lists its members as `std::map` iterates them. -/
inductive Json where
  | null
  | numberInteger (i : Int)
  | string (s : Bytes)
  | binary (b : Bytes)
  | array (items : List Json)
  | object (members : List (Bytes × Json))

namespace Json

/-! ## Typed access -/

/-- `contains(key)`: false on anything but an object. -/
def contains (j : Json) (key : Bytes) : Bool :=
  match j with
  | object m => (lookup key m).isSome
  | _ => false

/-- `value(key, default)` before the conversion of the stored value. -/
def value (j : Json) (key : Bytes) (dflt : Json) : Except Exception Json :=
  match j with
  | object m => .ok ((lookup key m).getD dflt)
  | _ => .error (.typeError 306)

def getString : Json → Except Exception Bytes
  | string s => .ok s
  | _ => .error (.typeError 302)

def getInteger : Json → Except Exception Int
  | numberInteger i => .ok i
  | _ => .error (.typeError 302)

def getBinary : Json → Except Exception Bytes
  | binary b => .ok b
  | _ => .error (.typeError 302)

def empty : Json → Bool
  | null => true
  | array items => items.isEmpty
  | object m => m.isEmpty
  | _ => false

/-! ## Dumps -/

def dumpInteger (i : Int) : Bytes := Decimal.printInt i

def utf8Accept : Nat := 0
def utf8Reject : Nat := 1

/-- Byte classes (first 256 entries), then one row of 16 transitions per state. -/
def utf8d : List Nat := [
  0, 0, 0, 0, 0, 0, 0, 0, 0, 0, 0, 0, 0, 0, 0, 0, 0, 0, 0, 0, 0, 0, 0, 0, 0, 0, 0, 0, 0, 0, 0, 0,
  0, 0, 0, 0, 0, 0, 0, 0, 0, 0, 0, 0, 0, 0, 0, 0, 0, 0, 0, 0, 0, 0, 0, 0, 0, 0, 0, 0, 0, 0, 0, 0,
  0, 0, 0, 0, 0, 0, 0, 0, 0, 0, 0, 0, 0, 0, 0, 0, 0, 0, 0, 0, 0, 0, 0, 0, 0, 0, 0, 0, 0, 0, 0, 0,
  0, 0, 0, 0, 0, 0, 0, 0, 0, 0, 0, 0, 0, 0, 0, 0, 0, 0, 0, 0, 0, 0, 0, 0, 0, 0, 0, 0, 0, 0, 0, 0,
  1, 1, 1, 1, 1, 1, 1, 1, 1, 1, 1, 1, 1, 1, 1, 1, 9, 9, 9, 9, 9, 9, 9, 9, 9, 9, 9, 9, 9, 9, 9, 9,
  7, 7, 7, 7, 7, 7, 7, 7, 7, 7, 7, 7, 7, 7, 7, 7, 7, 7, 7, 7, 7, 7, 7, 7, 7, 7, 7, 7, 7, 7, 7, 7,
  8, 8, 2, 2, 2, 2, 2, 2, 2, 2, 2, 2, 2, 2, 2, 2, 2, 2, 2, 2, 2, 2, 2, 2, 2, 2, 2, 2, 2, 2, 2, 2,
  0xA, 0x3, 0x3, 0x3, 0x3, 0x3, 0x3, 0x3, 0x3, 0x3, 0x3, 0x3, 0x3, 0x4, 0x3, 0x3,
  0xB, 0x6, 0x6, 0x6, 0x5, 0x8, 0x8, 0x8, 0x8, 0x8, 0x8, 0x8, 0x8, 0x8, 0x8, 0x8,
  0x0, 0x1, 0x2, 0x3, 0x5, 0x8, 0x7, 0x1, 0x1, 0x1, 0x4, 0x6, 0x1, 0x1, 0x1, 0x1,
  1, 1, 1, 1, 1, 1, 1, 1, 1, 1, 1, 1, 1, 1, 1, 1, 1, 0, 1, 1, 1, 1, 1, 0, 1, 0, 1, 1, 1, 1, 1, 1,
  1, 2, 1, 1, 1, 1, 1, 2, 1, 2, 1, 1, 1, 1, 1, 1, 1, 1, 1, 1, 1, 1, 1, 2, 1, 1, 1, 1, 1, 1, 1, 1,
  1, 2, 1, 1, 1, 1, 1, 1, 1, 2, 1, 1, 1, 1, 1, 1, 1, 1, 1, 1, 1, 1, 1, 3, 1, 3, 1, 1, 1, 1, 1, 1,
  1, 3, 1, 1, 1, 1, 1, 3, 1, 3, 1, 1, 1, 1, 1, 1, 1, 3, 1, 1, 1, 1, 1, 1, 1, 1, 1, 1, 1, 1, 1, 1]

/-- One step of the decoder automaton (the code point it also assembles only
chooses escapes in the text, which the callers discard). -/
def utf8Decode (state : Nat) (byte : UInt8) : Nat :=
  utf8d.getD (256 + state * 16 + utf8d.getD byte.toNat 0) utf8Reject

/-- The loop over the bytes of a string, in the strict mode of `dump`. -/
def dumpEscapedFrom (state : Nat) : Bytes → Except Exception Unit
  | [] => if state = utf8Accept then .ok () else .error (.typeError 316)
  | byte :: s =>
    if utf8Decode state byte = utf8Reject then .error (.typeError 316)
    else dumpEscapedFrom (utf8Decode state byte) s

def dumpEscaped (s : Bytes) : Except Exception Unit := dumpEscapedFrom utf8Accept s

/-! ## Meaning of the string dump -/

/-- What each live state of the automaton is waiting for. -/
def due : Nat → Option (Nat × Nat × Nat)
  | 0 => some (0, 0x80, 0xBF)
  | 2 => some (1, 0x80, 0xBF)
  | 3 => some (2, 0x80, 0xBF)
  | 4 => some (2, 0xA0, 0xBF)
  | 5 => some (2, 0x80, 0x9F)
  | 6 => some (3, 0x90, 0xBF)
  | 7 => some (3, 0x80, 0xBF)
  | 8 => some (3, 0x80, 0x8F)
  | _ => none

/-- The first part of the table, by ranges of bytes. -/
def byteClass (n : Nat) : Nat :=
  if n < 0x80 then 0 else if n < 0x90 then 1 else if n < 0xA0 then 9 else if n < 0xC0 then 7
  else if n < 0xC2 then 8 else if n < 0xE0 then 2 else if n = 0xE0 then 10
  else if n = 0xED then 4 else if n < 0xF0 then 3 else if n = 0xF0 then 11
  else if n < 0xF4 then 6 else if n = 0xF4 then 5 else 8

/-- The second part, by state and class; classes 1, 9 and 7 are the three
blocks of continuation bytes. -/
def transition (q t : Nat) : Nat :=
  match q, t with
  | 0, 0 => 0 | 0, 2 => 2 | 0, 3 => 3 | 0, 4 => 5 | 0, 5 => 8 | 0, 6 => 7 | 0, 10 => 4 | 0, 11 => 6
  | 2, 1 => 0 | 2, 7 => 0 | 2, 9 => 0
  | 3, 1 => 2 | 3, 7 => 2 | 3, 9 => 2
  | 4, 7 => 2
  | 5, 1 => 2 | 5, 9 => 2
  | 6, 7 => 3 | 6, 9 => 3
  | 7, 1 => 3 | 7, 7 => 3 | 7, 9 => 3
  | 8, 1 => 3
  | _, _ => 1

private theorem utf8d_class : ∀ n : Fin 256, utf8d.getD n 0 = byteClass n := by decide +kernel

private theorem utf8d_transition : ∀ q : Fin 9, ∀ t : Fin 12,
    utf8d.getD (256 + q * 16 + t) utf8Reject = transition q t := by decide +kernel

private theorem byteClass_lt : ∀ n : Fin 256, byteClass n < 12 := by decide +kernel

theorem utf8Decode_eq {q : Nat} (hq : q < 9) (b : UInt8) :
    utf8Decode q b = transition q (byteClass b.toNat) := by
  have hb : utf8d.getD b.toNat 0 = byteClass b.toNat := utf8d_class ⟨b.toNat, b.toNat_lt⟩
  rw [utf8Decode, hb]
  exact utf8d_transition ⟨q, hq⟩ ⟨_, byteClass_lt ⟨b.toNat, b.toNat_lt⟩⟩

/-- From the initial state a byte is a lead byte; the state names what it leads. -/
theorem due_accept (b : UInt8) : due (utf8Decode utf8Accept b) = Utf8.lead b := by
  have h : ∀ n : Fin 256, due (transition utf8Accept (byteClass n)) =
      Utf8.lead (UInt8.ofNat n) := by decide +kernel
  rw [utf8Decode_eq (by decide)]
  simpa using h ⟨b.toNat, b.toNat_lt⟩

theorem due_lt {q n lo hi : Nat} (h : due q = some (n, lo, hi)) : q < 9 := by
  unfold due at h
  split at h <;> first | omega | cases h

/-- In any other live state a byte in range leaves one byte fewer to come. -/
theorem due_step {q n lo hi : Nat} (hq : due q = some (n + 1, lo, hi)) (b : UInt8) :
    due (utf8Decode q b) =
      if lo ≤ b.toNat ∧ b.toNat ≤ hi then some (n, 0x80, 0xBF) else none := by
  have h : ∀ q : Fin 9, ∀ d ∈ due q, d.1 ≠ 0 → ∀ b : Fin 256,
      due (transition q (byteClass b)) =
        if d.2.1 ≤ b.val ∧ b.val ≤ d.2.2 then some (d.1 - 1, 0x80, 0xBF) else none := by
    decide +kernel
  rw [utf8Decode_eq (due_lt hq)]
  simpa using h ⟨q, due_lt hq⟩ _ hq (by simp) ⟨b.toNat, b.toNat_lt⟩

/-- The only dead state is the rejecting one. -/
theorem utf8Decode_reject_iff {q : Nat} (hq : q < 9) (b : UInt8) :
    utf8Decode q b = utf8Reject ↔ due (utf8Decode q b) = none := by
  have h : ∀ q : Fin 9, ∀ t : Fin 12, transition q t = utf8Reject ↔
      due (transition q t) = none := by decide +kernel
  rw [utf8Decode_eq hq]
  exact h ⟨q, hq⟩ ⟨_, byteClass_lt ⟨b.toNat, b.toNat_lt⟩⟩

theorem due_eq_zero {q n lo hi : Nat} (h : due q = some (n, lo, hi)) :
    q = utf8Accept ↔ n = 0 := by
  unfold due at h
  split at h <;> simp_all [utf8Accept] <;> omega

theorem dumpEscapedFrom_ok_iff (s : Bytes) : ∀ {q n lo hi : Nat}, due q = some (n, lo, hi) →
    (dumpEscapedFrom q s = .ok () ↔ Utf8.Continues n lo hi s) := by
  induction s with
  | nil =>
    intro q n lo hi hq
    have h0 := due_eq_zero hq
    cases n with
    | zero => simp [dumpEscapedFrom, Utf8.Continues, h0, Utf8.valid_nil]
    | succ n => simp [dumpEscapedFrom, Utf8.Continues, h0]
  | cons b s ih =>
    intro q n lo hi hq
    have hlive : ∀ {m l h}, due (utf8Decode q b) = some (m, l, h) →
        (dumpEscapedFrom q (b :: s) = .ok () ↔ Utf8.Continues m l h s) := by
      intro m l h hd
      have hr : ¬ utf8Decode q b = utf8Reject := by
        rw [utf8Decode_reject_iff (due_lt hq), hd]
        simp
      rw [dumpEscapedFrom, if_neg hr]
      exact ih hd
    have hdead : due (utf8Decode q b) = none → ¬ dumpEscapedFrom q (b :: s) = .ok () := by
      intro hd
      rw [dumpEscapedFrom, if_pos ((utf8Decode_reject_iff (due_lt hq) b).mpr hd)]
      simp
    cases n with
    | zero =>
      obtain rfl := (due_eq_zero hq).mpr rfl
      rw [Utf8.Continues, Utf8.valid_cons_iff, ← due_accept]
      cases hd : due (utf8Decode utf8Accept b) with
      | none => simp [hdead hd]
      | some d =>
        obtain ⟨m, l, h⟩ := d
        simp [hlive hd]
    | succ n =>
      have hs := due_step hq b
      rw [Utf8.Continues]
      split at hs
      · next hb => simp [hlive hs, hb]
      · next hb =>
        have hn := hdead hs
        rw [not_and] at hb
        constructor
        · exact fun h => absurd h hn
        · exact fun h => absurd h.2.1 (hb h.1)

/-- The strict dump of a string succeeds exactly on UTF-8. -/
theorem dumpEscaped_ok_iff (s : Bytes) : dumpEscaped s = .ok () ↔ Utf8.Valid s :=
  dumpEscapedFrom_ok_iff s (show due utf8Accept = some (0, 0x80, 0xBF) from rfl)

theorem dumpEscaped_error {s : Bytes} {e : Exception} (h : dumpEscaped s = .error e) :
    e = .typeError 316 := by
  have hfrom : ∀ (s : Bytes) (q : Nat), dumpEscapedFrom q s = .error e → e = .typeError 316 := by
    intro s
    induction s with
    | nil =>
      intro q h
      rw [dumpEscapedFrom] at h
      split at h <;> cases h
      rfl
    | cons b s ih =>
      intro q h
      rw [dumpEscapedFrom] at h
      split at h
      · cases h
        rfl
      · exact ih _ h
  exact hfrom s _ h

end Json

end Bittorrent

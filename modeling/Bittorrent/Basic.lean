import Mathlib.Algebra.Group.Int.Defs
import Mathlib.Algebra.Group.Nat.Defs
import Mathlib.Data.List.Lex
import Mathlib.Tactic.SplitIfs

/-! Bytes, machine integers and the ways a call of the program can end. -/

namespace Bittorrent

abbrev Bytes := List UInt8

/-- A literal of the program; all its literals are ASCII. -/
def ascii (s : String) : Bytes := s.toList.map fun c => c.toNat.toUInt8

def toText (s : Bytes) : String := String.ofList (s.map fun b => Char.ofNat b.toNat)

/-- Byte order, as `char_traits<char>::compare` and `std::less<std::string>` use it. -/
instance byteOrder : LinearOrder UInt8 where
  le_refl := UInt8.le_refl
  le_trans _ _ _ := UInt8.le_trans
  le_antisymm _ _ := UInt8.le_antisymm
  le_total := UInt8.le_total
  lt_iff_le_not_ge := by
    intro a b
    simp only [UInt8.lt_iff_toNat_lt, UInt8.le_iff_toNat_le]
    omega
  toDecidableLE := inferInstance
  toDecidableEq := inferInstance
  toDecidableLT := inferInstance

/-- Range of `long long`. -/
def InInt64 (i : Int) : Prop := -2 ^ 63 ≤ i ∧ i < 2 ^ 63

instance (i : Int) : Decidable (InInt64 i) := inferInstanceAs (Decidable (_ ∧ _))

/-- Conversion to `size_t`: modulo 2^64, on the range (-2^64, 2^64) that a sum
of a `size_t` position and a `long long` can reach. -/
def sizeT (n : Int) : Nat := if 0 ≤ n then n.toNat else (n + 2 ^ 64).toNat

theorem sizeT_of_nonneg {n : Int} (h : 0 ≤ n) : sizeT n = n.toNat := if_pos h

@[simp] theorem sizeT_natCast (n : Nat) : sizeT n = n := by
  rw [sizeT_of_nonneg (by omega)]
  rfl

/-- What a call can end with besides returning: an exception of the program or
its libraries, behaviour the language leaves undefined (no handler sees it), or
the bound of a modelled recursion. -/
inductive Exception where
  | runtimeError (what : String)
  | typeError (id : Nat)
  | systemError (what : String)
  | invalidArgument (what : String)
  | undefined (what : String)
  | outOfFuel
  deriving DecidableEq

/-- `catch (std::exception)` -/
def Exception.caught : Exception → Bool
  | undefined _ => false
  | outOfFuel => false
  | _ => true

/-- A sequence returns exactly when both parts do. -/
theorem except_bind_eq_ok {ε α β : Type} {x : Except ε α} {f : α → Except ε β} {b : β} :
    (x >>= f) = .ok b ↔ ∃ a, x = .ok a ∧ f a = .ok b := by
  cases x <;> simp [bind, Except.bind]

theorem except_map_eq_ok {ε α β : Type} {x : Except ε α} {f : α → β} {b : β} :
    x.map f = .ok b ↔ ∃ a, x = .ok a ∧ f a = b := by
  cases x <;> simp [Except.map]

/-- Result of a call that returns `std::optional`. -/
inductive Outcome (α : Type) where
  | value (a : α)
  | nullopt
  | throws (e : Exception)

namespace Outcome

variable {α β : Type}

def bind (x : Outcome α) (f : α → Outcome β) : Outcome β :=
  match x with
  | value a => f a
  | nullopt => nullopt
  | throws e => throws e

def ofExcept : Except Exception α → Outcome α
  | .ok a => value a
  | .error e => throws e

def isValue : Outcome α → Bool
  | value _ => true
  | _ => false

instance : Monad Outcome where
  pure := value
  bind := bind

@[simp] theorem pure_eq (a : α) : (pure a : Outcome α) = value a := rfl
@[simp] theorem value_bind (a : α) (f : α → Outcome β) : (value a >>= f) = f a := rfl
@[simp] theorem nullopt_bind (f : α → Outcome β) : (nullopt >>= f) = nullopt := rfl
@[simp] theorem throws_bind (e : Exception) (f : α → Outcome β) :
    (throws e >>= f) = throws e := rfl

/-- A sequence returns a value exactly when both parts do. -/
theorem bind_eq_value {x : Outcome α} {f : α → Outcome β} {b : β} :
    (x >>= f) = value b ↔ ∃ a, x = value a ∧ f a = value b := by
  cases x <;> simp

@[simp] theorem ofExcept_eq_value {x : Except Exception α} {a : α} :
    ofExcept x = value a ↔ x = .ok a := by
  cases x <;> simp [ofExcept]

/-- What holds when a call returns a value, and when it throws. -/
structure Ends (x : Outcome α) (P : α → Prop) (Q : Prop) : Prop where
  value : ∀ a, x = .value a → P a
  throws : ∀ e, x = .throws e → Q

variable {P P' : α → Prop} {Q Q' : Prop}

theorem Ends.ret {a : α} (h : P a) : Ends (.value a) P Q := by
  refine ⟨fun b hb => ?_, fun e he => ?_⟩
  · cases hb
    exact h
  · cases he

theorem Ends.none : Ends .nullopt P Q := by
  refine ⟨fun a ha => ?_, fun e he => ?_⟩
  · cases ha
  · cases he

theorem Ends.raise {e : Exception} (h : Q) : Ends (.throws e) P Q := by
  refine ⟨fun a ha => ?_, fun _ _ => h⟩
  cases ha

theorem Ends.mono {x : Outcome α} (h : Ends x P Q) (hP : ∀ a, P a → P' a) (hQ : Q → Q') :
    Ends x P' Q' :=
  ⟨fun a ha => hP a (h.value a ha), fun e he => hQ (h.throws e he)⟩

theorem Ends.bind {x : Outcome α} {f : α → Outcome β} {R : β → Prop} (hx : Ends x P Q)
    (hf : ∀ a, P a → Ends (f a) R Q) : Ends (x >>= f) R Q := by
  cases x with
  | value a => exact hf a (hx.value a rfl)
  | nullopt => exact .none
  | throws e => exact .raise (hx.throws e rfl)

end Outcome

end Bittorrent

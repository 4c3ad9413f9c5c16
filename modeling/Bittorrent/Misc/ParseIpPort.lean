import Mathlib.Data.List.TakeWhile
import Bittorrent.Lib.Decimal
import Bittorrent.Basic

/-! Splitting a peer's address from its port. -/

namespace Bittorrent.Misc

open Lib.Decimal

/-- `\d` from one to `max` times; a run of digits is never followed by a digit here. -/
def matchDigits (max : Nat) (s : Bytes) : Option (Bytes × Bytes) :=
  let digits := s.takeWhile isDigit
  if digits ≠ [] ∧ digits.length ≤ max then some (digits, s.dropWhile isDigit) else none

def matchByte (b : UInt8) : Bytes → Option Bytes
  | c :: s => if c = b then some s else none
  | [] => none

/-- The match of `(\d+\.\d+\.\d+\.\d+):(\d+)` with at most three digits in each
part of the address and five in the port. -/
def matchIpPort (s : Bytes) : Option (Bytes × Bytes) := do
  let (a, s) ← matchDigits 3 s
  let s ← matchByte 46 s
  let (b, s) ← matchDigits 3 s
  let s ← matchByte 46 s
  let (c, s) ← matchDigits 3 s
  let s ← matchByte 46 s
  let (d, s) ← matchDigits 3 s
  let s ← matchByte 58 s
  let (port, s) ← matchDigits 5 s
  if s = [] then some (a ++ 46 :: b ++ 46 :: c ++ 46 :: d, port) else none

def parseIpPort (ipPortStr : Bytes) : Except Exception (Bytes × Bytes) :=
  match matchIpPort ipPortStr with
  | some (ip, port) => .ok (ip, port)
  | none => .error (.runtimeError
      ("Peer ip and port must be in format \"<d.d.d.d>:<d>\" (d means digit). Found: " ++
        toText ipPortStr))

theorem matchDigits_append {max : Nat} {ds rest : Bytes} (h : Numeral ds) (hl : ds.length ≤ max)
    (hr : ∀ b ∈ rest.head?, isDigit b = false) :
    matchDigits max (ds ++ rest) = some (ds, rest) := by
  unfold matchDigits
  rw [takeWhile_numeral h hr, dropWhile_numeral h hr]
  exact if_pos ⟨h.1, hl⟩

/-- Numerals of at most three digits, and one of at most five, are taken apart again. -/
theorem parseIpPort_numerals {a b c d port : Bytes} (ha : Numeral a ∧ a.length ≤ 3)
    (hb : Numeral b ∧ b.length ≤ 3) (hc : Numeral c ∧ c.length ≤ 3) (hd : Numeral d ∧ d.length ≤ 3)
    (hport : Numeral port ∧ port.length ≤ 5) :
    parseIpPort (a ++ 46 :: (b ++ 46 :: (c ++ 46 :: (d ++ 58 :: port)))) =
      .ok (a ++ 46 :: b ++ 46 :: c ++ 46 :: d, port) := by
  have hdot : ∀ (rest : Bytes), ∀ x ∈ (46 :: rest).head?, isDigit x = false := by
    intro rest x hx
    cases hx
    decide
  have hcolon : ∀ (rest : Bytes), ∀ x ∈ (58 :: rest).head?, isDigit x = false := by
    intro rest x hx
    cases hx
    decide
  have hend : matchDigits 5 port = some (port, []) := by
    have hnone : ∀ x ∈ ([] : Bytes).head?, isDigit x = false := by
      intro x hx
      cases hx
    have hmatch := matchDigits_append hport.1 hport.2 hnone
    rwa [List.append_nil] at hmatch
  have hmatch : matchIpPort (a ++ 46 :: (b ++ 46 :: (c ++ 46 :: (d ++ 58 :: port)))) =
      some (a ++ 46 :: b ++ 46 :: c ++ 46 :: d, port) := by
    simp only [matchIpPort, matchDigits_append ha.1 ha.2 (hdot _), matchDigits_append hb.1 hb.2 (hdot _),
      matchDigits_append hc.1 hc.2 (hdot _), matchDigits_append hd.1 hd.2 (hcolon _), hend, matchByte,
      if_true, Option.bind_eq_bind, Option.bind_some]
  rw [parseIpPort, hmatch]

end Bittorrent.Misc

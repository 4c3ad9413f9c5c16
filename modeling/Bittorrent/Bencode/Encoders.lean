import Bittorrent.Bencode.Types
import Bittorrent.Lib.Bencode

/-! The encoder. What it writes is one derivation of the canonical grammar,
whatever the value: `StringText` and `Dialect.int` facts for the leaves are
here, the values around them in `Bencode.Canonical`. -/

namespace Bittorrent.Bencode

open Lib Lib.Decimal Lib.Bencode

def encodeInteger (value : Int) : Bytes :=
  integerStartSymbol :: (Json.dumpInteger value ++ [endSymbol])

def encodeString (value : Bytes) : Bytes :=
  print value.length ++ stringDelimiterSymbol :: value

def encodeBinary (value : Bytes) : Bytes :=
  print value.length ++ stringDelimiterSymbol :: value

mutual

def encode : Json → Option Bytes
  | .numberInteger i => some (encodeInteger i)
  | .string s => some (encodeString s)
  | .binary b => some (encodeBinary b)
  | .object dict => do
    let stream ← encodeMembers dict
    some (dictStartSymbol :: (stream ++ [endSymbol]))
  | .array list => do
    let stream ← encodeItems list
    some (listStartSymbol :: (stream ++ [endSymbol]))
  | .null => none
termination_by structural value => value

/-- The loop of `encode_list`. -/
def encodeItems : List Json → Option Bytes
  | [] => some []
  | value :: list => do
    let encodedValue ← encode value
    let stream ← encodeItems list
    some (encodedValue ++ stream)
termination_by structural list => list

/-- The loop of `encode_dict`. -/
def encodeMembers : List (Bytes × Json) → Option Bytes
  | [] => some []
  | member :: dict => do
    let encodedMember ← encodeMember member
    let stream ← encodeMembers dict
    some (encodedMember ++ stream)
termination_by structural dict => dict

def encodeMember : Bytes × Json → Option Bytes
  | (key, value) => do
    let encodedValue ← encode value
    some (encodeString key ++ encodedValue)
termination_by structural member => member

end

/-- A number prints as the one canonical text that denotes it. -/
theorem dumpInteger_canonical (i : Int) : canonical.int (Json.dumpInteger i) i := by
  unfold Json.dumpInteger printInt
  split
  · next h =>
    refine ⟨true, print i.natAbs, print_minimal _, fun _ hz => ?_, rfl, ?_⟩
    · have hv := value_print i.natAbs
      rw [hz] at hv
      have h0 : value [48] = 0 := rfl
      omega
    · simp only [signedValue, value_print, if_true]
      omega
  · next h =>
    refine ⟨false, print i.natAbs, print_minimal _, fun hf => absurd hf (by simp), rfl, ?_⟩
    simp only [signedValue, value_print, Bool.false_eq_true, if_false]
    omega

/-- Converse: a canonical text is what its number prints as. -/
theorem dumpInteger_of_canonical {w : Bytes} {i : Int} (h : canonical.int w i) :
    Json.dumpInteger i = w := by
  obtain ⟨neg, ds, hm, hz, rfl, rfl⟩ := h
  have hp := print_value hm
  unfold Json.dumpInteger printInt
  cases neg with
  | false =>
    have hn : ¬ (signedValue false ds : Int) < 0 := by simp [signedValue]
    have ha : (signedValue false ds).natAbs = value ds := by simp [signedValue]
    rw [if_neg hn, ha, hp]
    rfl
  | true =>
    have hv : value ds ≠ 0 := by
      intro h0
      rw [h0] at hp
      exact hz rfl hp.symm
    have hn : (signedValue true ds : Int) < 0 := by
      simp only [signedValue, if_true]
      omega
    have ha : (signedValue true ds).natAbs = value ds := by simp [signedValue]
    rw [if_pos hn, ha, hp]
    rfl

theorem encodeString_text (s : Bytes) : StringText canonical (encodeString s) s :=
  ⟨print s.length, ⟨print_minimal _, value_print _⟩, rfl⟩

theorem encodeString_of_text {w b : Bytes} (h : StringText canonical w b) : encodeString b = w := by
  obtain ⟨l, ⟨hm, hv⟩, rfl⟩ := h
  rw [encodeString, ← hv, print_value hm]
  rfl

end Bittorrent.Bencode

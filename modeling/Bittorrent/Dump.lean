import Bittorrent.Bencode.Canonical
import Bittorrent.Misc.Sha1

/-! The text `dump` makes of a value, on one line. It throws on a string that is
not UTF-8; the decoder makes no such string (`decode_dump`). -/

namespace Bittorrent

open Lib Lib.Decimal Bencode Misc

namespace Json

/-- A byte of a string; bytes of longer code points are copied. -/
def escapeByte (byte : UInt8) : Bytes :=
  match byte.toNat with
  | 0x08 => ascii "\\b"
  | 0x09 => ascii "\\t"
  | 0x0A => ascii "\\n"
  | 0x0C => ascii "\\f"
  | 0x0D => ascii "\\r"
  | 0x22 => ascii "\\\""
  | 0x5C => ascii "\\\\"
  | n => if n ≤ 0x1F then ascii "\\u00" ++ hexByte byte else [byte]

def dumpString (s : Bytes) : Except Exception Bytes := do
  dumpEscaped s
  .ok (34 :: s.flatMap escapeByte ++ [34])

/-- The parts of an array or an object, between its brackets. -/
def bracketed (first last : UInt8) (parts : List Bytes) : Bytes :=
  first :: [44].intercalate parts ++ [last]

mutual

def dump : Json → Except Exception Bytes
  | .null => .ok (ascii "null")
  | .numberInteger i => .ok (dumpInteger i)
  | .string s => dumpString s
  | .binary b => .ok (bracketed 123 125 [ascii "\"bytes\":" ++
      bracketed 91 93 (b.map fun byte => print byte.toNat), ascii "\"subtype\":null"])
  | .array items => do .ok (bracketed 91 93 (← dumpItems items))
  | .object members => do .ok (bracketed 123 125 (← dumpMembers members))
termination_by structural value => value

def dumpItems : List Json → Except Exception (List Bytes)
  | [] => .ok []
  | item :: items => do
    let text ← dump item
    .ok (text :: (← dumpItems items))
termination_by structural items => items

def dumpMembers : List (Bytes × Json) → Except Exception (List Bytes)
  | [] => .ok []
  | member :: members => do
    let text ← dumpMember member
    .ok (text :: (← dumpMembers members))
termination_by structural members => members

def dumpMember : Bytes × Json → Except Exception Bytes
  | (key, value) => do
    let keyText ← dumpString key
    .ok (keyText ++ 58 :: (← dump value))
termination_by structural member => member

end

end Json

namespace Bencode

theorem dumpString_ok {s : Bytes} (h : Utf8.Valid s) : ∃ text, Json.dumpString s = .ok text := by
  refine ⟨34 :: s.flatMap Json.escapeByte ++ [34], ?_⟩
  rw [Json.dumpString, (Json.dumpEscaped_ok_iff s).mpr h]
  rfl

variable {fits : Nat → Prop}

mutual

theorem Bencodable.dump : ∀ {v : Json}, Bencodable fits v → ∃ text, v.dump = .ok text
  | .numberInteger _, _ => ⟨_, rfl⟩
  | .string _, h => dumpString_ok h.1
  | .binary _, _ => ⟨_, rfl⟩
  | .array list, h => by
    obtain ⟨texts, ht⟩ := Bencodable.dumpItems h
    exact ⟨_, by rw [Json.dump, ht]; rfl⟩
  | .object dict, h => by
    obtain ⟨texts, ht⟩ := Bencodable.dumpMembers h.2
    exact ⟨_, by rw [Json.dump, ht]; rfl⟩

theorem Bencodable.dumpItems : ∀ {list : List Json}, BencodableItems fits list →
    ∃ texts, Json.dumpItems list = .ok texts
  | [], _ => ⟨[], rfl⟩
  | value :: list, h => by
    obtain ⟨text, hv⟩ := Bencodable.dump h.1
    obtain ⟨texts, ht⟩ := Bencodable.dumpItems h.2
    exact ⟨_, by rw [Json.dumpItems, hv, ht]; rfl⟩

theorem Bencodable.dumpMembers : ∀ {dict : List (Bytes × Json)}, BencodableMembers fits dict →
    ∃ texts, Json.dumpMembers dict = .ok texts
  | [], _ => ⟨[], rfl⟩
  | (key, value) :: dict, h => by
    obtain ⟨keyText, hk⟩ := dumpString_ok (s := key) h.1.1.1
    obtain ⟨text, hv⟩ := Bencodable.dump h.1.2
    obtain ⟨texts, ht⟩ := Bencodable.dumpMembers h.2
    exact ⟨_, by rw [Json.dumpMembers, Json.dumpMember, hk, hv, ht]; rfl⟩

end

/-- Every decoded value can be printed. -/
theorem decode_dump {s : Bytes} {e : EncodedValue} {v : Json}
    (h : decodeBencodedValue s = .value (e, v)) : ∃ text, v.dump = .ok text :=
  Bencodable.dump (decode_bencodable (fun _ _ => trivial) h)

example : (Json.object [(ascii "a", .array [.numberInteger 1, .binary [255, 0]])]).dump =
    .ok (123 :: ascii "\"a\":[1," ++ 123 :: ascii "\"bytes\":[255,0],\"subtype\":null" ++ [125] ++
      ascii "]" ++ [125]) := by decide +kernel

end Bencode

end Bittorrent

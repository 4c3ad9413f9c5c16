import Bittorrent.Dump
import Bittorrent.Lib.JsonText

/-! What the text of `dump` says about the value. A binary is printed like an
object, but with a member that is null, which nothing decoded has: two decoded
values with the same text are the same value (`dump_injective`). -/

namespace Bittorrent

open Lib Lib.Decimal Lib.JsonText Bencode Misc

namespace Json

/-! ## Escapes -/

/-- The byte an escape stands for. -/
def unescape : Bytes → UInt8
  | [b] => b
  | [_, c] =>
    if c = 98 then 8 else if c = 116 then 9 else if c = 110 then 10 else if c = 102 then 12
    else if c = 114 then 13 else c
  | [_, _, _, _, hi, lo] => UInt8.ofNat ((hexVal hi).getD 0 * 16 + (hexVal lo).getD 0)
  | _ => 0

/-- The length of the escape at the front. -/
def escapeLength (s : Bytes) : Nat :=
  if s.head? ≠ some 92 then 1 else if (s.drop 1).head? = some 117 then 6 else 2

/-- What the first bytes of an escape say. -/
structure WellEscaped (b : UInt8) : Prop where
  unescaped : unescape (escapeByte b) = b
  length : escapeLength (escapeByte b) = (escapeByte b).length
  unquoted : (escapeByte b).head? ≠ some 34
  long : (escapeByte b).head? = some 92 → (escapeByte b).drop 1 ≠ []

theorem wellEscaped (b : UInt8) : WellEscaped b := by
  have h : ∀ n : Fin 256, unescape (escapeByte (UInt8.ofNat n)) = UInt8.ofNat n ∧
      escapeLength (escapeByte (UInt8.ofNat n)) = (escapeByte (UInt8.ofNat n)).length ∧
      (escapeByte (UInt8.ofNat n)).head? ≠ some 34 ∧
      ((escapeByte (UInt8.ofNat n)).head? = some 92 →
        (escapeByte (UInt8.ofNat n)).drop 1 ≠ []) := by
    decide +kernel
  obtain ⟨h1, h2, h3, h4⟩ := h ⟨b.toNat, b.toNat_lt⟩
  rw [UInt8.ofNat_toNat] at h1 h2 h3 h4
  exact ⟨h1, h2, h3, h4⟩

theorem escapeByte_ne_nil (b : UInt8) : escapeByte b ≠ [] := by
  intro h
  have hlen := (wellEscaped b).length
  rw [h] at hlen
  exact absurd hlen (by decide)

theorem escapeLength_append (b : UInt8) (t : Bytes) :
    escapeLength (escapeByte b ++ t) = (escapeByte b).length := by
  have hb := wellEscaped b
  rw [← hb.length]
  unfold escapeLength
  rw [List.head?_append_of_ne_nil _ (escapeByte_ne_nil b)]
  split
  · rfl
  · next hhead =>
    have hlong := hb.long (Decidable.not_not.mp hhead)
    rw [List.drop_append_of_le_length (List.length_pos_iff.mpr (escapeByte_ne_nil b)),
      List.head?_append_of_ne_nil _ hlong]

def escape : Escape where
  code := escapeByte
  head b := by
    cases hb : escapeByte b with
    | nil => exact absurd hb (escapeByte_ne_nil b)
    | cons c cs =>
      refine ⟨c, cs, rfl, fun hc => (wellEscaped b).unquoted ?_⟩
      rw [hb, hc]
      rfl
  cut b b' t t' h := by
    have hlen : (escapeByte b).length = (escapeByte b').length := by
      rw [← escapeLength_append b t, h, escapeLength_append]
    obtain ⟨hcode, ht⟩ := List.append_inj h hlen
    refine ⟨?_, ht⟩
    rw [← (wellEscaped b).unescaped, hcode, (wellEscaped b').unescaped]

theorem dumpString_quote {s text : Bytes} (h : dumpString s = .ok text) : text = quote escape s := by
  obtain ⟨_, _, htext⟩ := except_bind_eq_ok.mp h
  exact (Except.ok.inj htext).symm

/-! ## Values as trees -/

mutual

def tree : Json → Tree
  | .null => .null
  | .numberInteger i => .int i
  | .string s => .str s
  | .binary b => .obj [(ascii "bytes", .arr (b.map fun byte => .int byte.toNat)),
      (ascii "subtype", .null)]
  | .array items => .arr (itemTrees items)
  | .object members => .obj (memberTrees members)
termination_by structural value => value

def itemTrees : List Json → List Tree
  | [] => []
  | item :: items => tree item :: itemTrees items
termination_by structural items => items

def memberTrees : List (Bytes × Json) → List (Bytes × Tree)
  | [] => []
  | member :: members => memberTree member :: memberTrees members
termination_by structural members => members

def memberTree : Bytes × Json → Bytes × Tree
  | (key, value) => (key, tree value)
termination_by structural member => member

end

/-- The numbers of a binary are those of an array of integers. -/
theorem text_binary (b : Bytes) : text escape (tree (.binary b)) =
    bracketed 123 125 [ascii "\"bytes\":" ++
      bracketed 91 93 (b.map fun byte => print byte.toNat), ascii "\"subtype\":null"] := by
  have hnumbers : texts escape (b.map fun byte => .int byte.toNat) =
      b.map fun byte => print byte.toNat := by
    rw [texts_eq_map, List.map_map]
    exact List.map_congr_left fun byte _ => rfl
  show bracketed 123 125 [quote escape (ascii "bytes") ++ 58 ::
    JsonText.bracketed 91 93 (texts escape (b.map fun byte => .int byte.toNat)), _] = _
  rw [hnumbers]
  rfl

mutual

theorem dump_tree : ∀ {v : Json} {x : Bytes}, v.dump = .ok x → x = text escape (tree v)
  | .null, _, h => (Except.ok.inj h).symm
  | .numberInteger _, _, h => (Except.ok.inj h).symm
  | .string _, _, h => dumpString_quote h
  | .binary b, _, h => (Except.ok.inj h).symm.trans (text_binary b).symm
  | .array items, x, h => by
    obtain ⟨parts, hparts, hx⟩ := except_bind_eq_ok.mp h
    rw [← Except.ok.inj hx, dumpItems_trees hparts]
    rfl
  | .object members, x, h => by
    obtain ⟨parts, hparts, hx⟩ := except_bind_eq_ok.mp h
    rw [← Except.ok.inj hx, dumpMembers_trees hparts]
    rfl
termination_by structural v => v

theorem dumpItems_trees : ∀ {items : List Json} {parts : List Bytes},
    dumpItems items = .ok parts → parts = texts escape (itemTrees items)
  | [], _, h => (Except.ok.inj h).symm
  | item :: items, parts, h => by
    obtain ⟨part, hpart, h⟩ := except_bind_eq_ok.mp h
    obtain ⟨rest, hrest, h⟩ := except_bind_eq_ok.mp h
    rw [← Except.ok.inj h, dump_tree hpart, dumpItems_trees hrest]
    rfl
termination_by structural items => items

theorem dumpMembers_trees : ∀ {members : List (Bytes × Json)} {parts : List Bytes},
    dumpMembers members = .ok parts → parts = memberTexts escape (memberTrees members)
  | [], _, h => (Except.ok.inj h).symm
  | member :: members, parts, h => by
    obtain ⟨part, hpart, h⟩ := except_bind_eq_ok.mp h
    obtain ⟨rest, hrest, h⟩ := except_bind_eq_ok.mp h
    rw [← Except.ok.inj h, dumpMember_tree hpart, dumpMembers_trees hrest]
    rfl
termination_by structural members => members

theorem dumpMember_tree : ∀ {member : Bytes × Json} {part : Bytes},
    dumpMember member = .ok part → part = memberText escape (memberTree member)
  | (key, value), part, h => by
    obtain ⟨keyText, hkey, h⟩ := except_bind_eq_ok.mp h
    obtain ⟨valueText, hvalue, h⟩ := except_bind_eq_ok.mp h
    rw [← Except.ok.inj h, dumpString_quote hkey, dump_tree hvalue]
    rfl
termination_by structural member => member

end

/-! ## Decoded values -/

variable {fits : Nat → Prop}

theorem tree_ne_null {v : Json} (hv : Bencodable fits v) : tree v ≠ .null := by
  cases v with
  | null => exact hv.elim
  | _ => nofun

/-- No member of a decoded dictionary is printed like the last part of a binary. -/
theorem tree_object_ne_binary {dict : List (Bytes × Json)} (hv : Bencodable fits (.object dict))
    (b : Bytes) : tree (.object dict) ≠ tree (.binary b) := by
  intro h
  have hmembers := Tree.obj.inj h
  cases dict with
  | nil => cases hmembers
  | cons _ dict =>
    cases dict with
    | nil => cases (List.cons.inj hmembers).2
    | cons last dict =>
      obtain ⟨_, value⟩ := last
      have hlast := (List.cons.inj (List.cons.inj hmembers).2).1
      exact tree_ne_null hv.2.2.1.2 (Prod.mk.inj hlast).2

theorem tree_binary_injective {b b' : Bytes} (h : tree (.binary b) = tree (.binary b')) : b = b' := by
  have hnumbers := Tree.arr.inj (Prod.mk.inj (List.cons.inj (Tree.obj.inj h)).1).2
  refine List.map_injective_iff.mpr (fun x y hxy => ?_) hnumbers
  exact UInt8.toNat_inj.mp (Int.ofNat.inj (Tree.int.inj hxy))

mutual

theorem tree_injective : ∀ {v v' : Json}, Bencodable fits v → Bencodable fits v' →
    tree v = tree v' → v = v'
  | .null, _, hv, _, _ => hv.elim
  | .numberInteger _, v', _, _, h => by
    cases v' with
    | numberInteger => exact congrArg _ (Tree.int.inj h)
    | _ => cases h
  | .string _, v', _, _, h => by
    cases v' with
    | string => exact congrArg _ (Tree.str.inj h)
    | _ => cases h
  | .binary b, v', _, hv', h => by
    cases v' with
    | binary => exact congrArg _ (tree_binary_injective h)
    | object => exact absurd h.symm (tree_object_ne_binary hv' b)
    | _ => cases h
  | .array items, v', hv, hv', h => by
    cases v' with
    | array => exact congrArg _ (itemTrees_injective hv hv' (Tree.arr.inj h))
    | _ => cases h
  | .object members, v', hv, hv', h => by
    cases v' with
    | object => exact congrArg _ (memberTrees_injective hv.2 hv'.2 (Tree.obj.inj h))
    | binary b => exact absurd h (tree_object_ne_binary hv b)
    | _ => cases h
termination_by structural v => v

theorem itemTrees_injective : ∀ {items items' : List Json}, BencodableItems fits items →
    BencodableItems fits items' → itemTrees items = itemTrees items' → items = items'
  | [], items', _, _, h => by
    cases items' with
    | nil => rfl
    | cons => cases h
  | item :: items, items', hv, hv', h => by
    cases items' with
    | nil => cases h
    | cons =>
      have h := List.cons.inj h
      rw [tree_injective hv.1 hv'.1 h.1, itemTrees_injective hv.2 hv'.2 h.2]
termination_by structural items => items

theorem memberTrees_injective : ∀ {members members' : List (Bytes × Json)},
    BencodableMembers fits members → BencodableMembers fits members' →
    memberTrees members = memberTrees members' → members = members'
  | [], members', _, _, h => by
    cases members' with
    | nil => rfl
    | cons => cases h
  | member :: members, members', hv, hv', h => by
    cases members' with
    | nil => cases h
    | cons =>
      have h := List.cons.inj h
      rw [memberTree_injective hv.1 hv'.1 h.1, memberTrees_injective hv.2 hv'.2 h.2]
termination_by structural members => members

theorem memberTree_injective : ∀ {member member' : Bytes × Json}, BencodableMember fits member →
    BencodableMember fits member' → memberTree member = memberTree member' → member = member'
  | (key, value), (key', value'), hv, hv', h => by
    have h := Prod.mk.inj h
    rw [h.1, tree_injective hv.2 hv'.2 h.2]
termination_by structural member => member

end

/-- The text of a decoded value stands for no other. -/
theorem dump_injective {v v' : Json} {text : Bytes} (hv : Bencodable fits v)
    (hv' : Bencodable fits v') (h : v.dump = .ok text) (h' : v'.dump = .ok text) : v = v' :=
  tree_injective hv hv' (text_injective ((dump_tree h).symm.trans (dump_tree h')))

end Json

end Bittorrent

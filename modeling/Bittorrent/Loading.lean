import Bittorrent.Torrent

/-! Loading a torrent file, whatever is in it. In strict mode the keys are
looked for first, but a look is no check of the type of what is found, and the
first read of all comes before it (`fromFile_total_iff`). -/

namespace Bittorrent.Torrent

open Lib Lib.OrderedMap Bencode

/-- The typed reads at the end of `from_file`. -/
def readMembers (metainfoJson info : Json) : Outcome Metainfo := do
  let announce ← Outcome.ofExcept do
    (← metainfoJson.value (ascii "announce") (.string (ascii "unknown"))).getString
  let length ← Outcome.ofExcept do (← info.value (ascii "length") (.numberInteger 0)).getInteger
  let pieceLength ← Outcome.ofExcept do
    (← info.value (ascii "piece length") (.numberInteger 0)).getInteger
  .value ⟨metainfoJson, announce, length, pieceLength⟩

def isFullMeta (metainfoJson info : Json) : Bool :=
  metainfoJson.contains (ascii "announce") && metainfoJson.contains (ascii "info") &&
    info.contains (ascii "length") && info.contains (ascii "piece length")

/-- What becomes of a file that is decoded to an object. -/
def load (strict : Bool) (dict : List (Bytes × Json)) : Outcome Metainfo :=
  let info := (lookup (ascii "info") dict).getD .null
  if strict && !isFullMeta (.object dict) info then .nullopt else readMembers (.object dict) info

theorem fromFile_object {torrentContent : Bytes} {e : EncodedValue} {dict : List (Bytes × Json)}
    (h : decodeBencodedValue torrentContent = .value (e, .object dict)) (strict : Bool) :
    fromFile torrentContent strict = load strict dict := by
  unfold fromFile metainfo
  rw [h]
  rfl

/-- The first read does not ask for the kind of what it reads from. -/
theorem fromFile_not_object {torrentContent : Bytes} {e : EncodedValue} {v : Json}
    (h : decodeBencodedValue torrentContent = .value (e, v)) (hv : ∀ dict, v ≠ .object dict)
    (strict : Bool) : fromFile torrentContent strict = .throws (.typeError 306) := by
  unfold fromFile metainfo
  rw [h]
  cases v with
  | object dict => exact absurd rfl (hv dict)
  | _ => rfl

theorem fromFile_nullopt {torrentContent : Bytes} (h : decodeBencodedValue torrentContent = .nullopt)
    (strict : Bool) : fromFile torrentContent strict = .nullopt := by
  unfold fromFile metainfo
  rw [h]
  rfl

/-- The keys strict mode looks for. -/
structure Present (dict info : List (Bytes × Json)) : Prop where
  announce : (lookup (ascii "announce") dict).isSome = true
  length : (lookup (ascii "length") info).isSome = true
  pieceLength : (lookup (ascii "piece length") info).isSome = true

/-- What is there has the type it is read as. -/
structure Typed (dict info : List (Bytes × Json)) : Prop where
  announce : ∀ v, lookup (ascii "announce") dict = some v → ∃ a, v = .string a
  length : ∀ v, lookup (ascii "length") info = some v → ∃ i, v = .numberInteger i
  pieceLength : ∀ v, lookup (ascii "piece length") info = some v → ∃ i, v = .numberInteger i

/-- A dictionary with a text `announce` and an `info` dictionary that has both
lengths as integers. -/
def Complete (v : Json) : Prop :=
  ∃ dict info a l p, v = .object dict ∧ lookup (ascii "info") dict = some (.object info) ∧
    lookup (ascii "announce") dict = some (.string a) ∧
    lookup (ascii "length") info = some (.numberInteger l) ∧
    lookup (ascii "piece length") info = some (.numberInteger p)

/-- A dictionary, in which strict mode misses a key, or everything that is read
has the right type. -/
def Loadable (strict : Bool) (v : Json) : Prop :=
  ∃ dict, v = .object dict ∧
    ((strict = true ∧
        ¬ ∃ info, lookup (ascii "info") dict = some (.object info) ∧ Present dict info) ∨
      ∃ info, lookup (ascii "info") dict = some (.object info) ∧ Typed dict info)

/-! ## The reads -/

theorem getString_eq_ok {v : Json} {a : Bytes} : v.getString = .ok a ↔ v = .string a := by
  cases v <;> simp [Json.getString]

theorem getInteger_eq_ok {v : Json} {i : Int} : v.getInteger = .ok i ↔ v = .numberInteger i := by
  cases v <;> simp [Json.getInteger]

/-- A read with a default of the right type fails on a member of another type only. -/
theorem read_member_iff {α : Type} {get : Json → Except Exception α} {dflt : Json}
    (hdflt : ∃ a, get dflt = .ok a) (key : Bytes) (dict : List (Bytes × Json)) :
    (∃ a, ((Json.object dict).value key dflt >>= get) = .ok a) ↔
      ∀ v, lookup key dict = some v → ∃ a, get v = .ok a := by
  have hvalue : ((Json.object dict).value key dflt >>= get) = get ((lookup key dict).getD dflt) := rfl
  rw [hvalue]
  cases lookup key dict with
  | none =>
    constructor
    · intro _ v h
      cases h
    · intro _
      exact hdflt
  | some v =>
    constructor
    · intro h v' hv
      cases hv
      exact h
    · intro h
      exact h v rfl

theorem readMembers_value_iff (dict : List (Bytes × Json)) (info : Json) :
    (∃ m, readMembers (.object dict) info = .value m) ↔
      ∃ members, info = .object members ∧ Typed dict members := by
  have hstring := @read_member_iff _ Json.getString (.string (ascii "unknown")) ⟨_, rfl⟩
    (ascii "announce") dict
  have hint := fun key => @read_member_iff _ Json.getInteger (.numberInteger 0) ⟨_, rfl⟩ key
  simp only [getString_eq_ok] at hstring
  simp only [getInteger_eq_ok] at hint
  constructor
  · intro h
    obtain ⟨m, h⟩ := h
    obtain ⟨a, ha, h⟩ := Outcome.bind_eq_value.mp h
    obtain ⟨l, hl, h⟩ := Outcome.bind_eq_value.mp h
    obtain ⟨p, hp, _⟩ := Outcome.bind_eq_value.mp h
    rw [Outcome.ofExcept_eq_value] at ha hl hp
    cases info with
    | object members =>
      exact ⟨members, rfl, hstring.mp ⟨a, ha⟩, (hint _ members).mp ⟨l, hl⟩,
        (hint _ members).mp ⟨p, hp⟩⟩
    | _ => cases hl
  · intro h
    obtain ⟨members, rfl, htyped⟩ := h
    obtain ⟨a, ha⟩ := hstring.mpr htyped.announce
    obtain ⟨l, hl⟩ := (hint _ members).mpr htyped.length
    obtain ⟨p, hp⟩ := (hint _ members).mpr htyped.pieceLength
    refine ⟨⟨.object dict, a, l, p⟩, ?_⟩
    exact Outcome.bind_eq_value.mpr ⟨a, Outcome.ofExcept_eq_value.mpr ha,
      Outcome.bind_eq_value.mpr ⟨l, Outcome.ofExcept_eq_value.mpr hl,
        Outcome.bind_eq_value.mpr ⟨p, Outcome.ofExcept_eq_value.mpr hp, rfl⟩⟩⟩

theorem readMembers_not_nullopt (dict : List (Bytes × Json)) (info : Json) :
    readMembers (.object dict) info ≠ .nullopt := by
  have hbind : ∀ {α β : Type} {x : Except Exception α} {f : α → Outcome β},
      (∀ a, f a ≠ .nullopt) → (Outcome.ofExcept x >>= f) ≠ .nullopt := by
    intro α β x f hf
    cases x with
    | ok a => exact hf a
    | error e =>
      intro h
      cases h
  refine hbind fun a => hbind fun l => hbind fun p => ?_
  intro h
  cases h

theorem isFullMeta_iff (dict : List (Bytes × Json)) :
    isFullMeta (.object dict) ((lookup (ascii "info") dict).getD .null) = true ↔
      ∃ info, lookup (ascii "info") dict = some (.object info) ∧ Present dict info := by
  unfold isFullMeta
  simp only [Bool.and_eq_true]
  constructor
  · intro h
    obtain ⟨⟨⟨ha, hi⟩, hl⟩, hp⟩ := h
    obtain ⟨_, info, hd, hinfo⟩ := contains_iff.mp hi
    cases hd
    rw [hinfo] at hl hp
    obtain ⟨members, _, rfl, _⟩ := contains_iff.mp hl
    exact ⟨members, hinfo, ha, hl, hp⟩
  · intro h
    obtain ⟨info, hinfo, hpresent⟩ := h
    have hcontains : (Json.object dict).contains (ascii "info") = true := by
      rw [Json.contains, hinfo]
      rfl
    rw [hinfo]
    exact ⟨⟨⟨hpresent.announce, hcontains⟩, hpresent.length⟩, hpresent.pieceLength⟩

theorem getD_object_iff {o : Option Json} {info : List (Bytes × Json)} :
    o.getD .null = .object info ↔ o = some (.object info) := by
  cases o <;> simp

/-! ## Loading -/

theorem load_not_throws_iff (strict : Bool) (dict : List (Bytes × Json)) :
    (∀ x, load strict dict ≠ .throws x) ↔ Loadable strict (.object dict) := by
  have hfull := isFullMeta_iff dict
  have hreads := readMembers_value_iff dict ((lookup (ascii "info") dict).getD .null)
  simp only [getD_object_iff] at hreads
  have hobject : Loadable strict (.object dict) ↔ (strict = true ∧
      ¬ ∃ info, lookup (ascii "info") dict = some (.object info) ∧ Present dict info) ∨
      ∃ info, lookup (ascii "info") dict = some (.object info) ∧ Typed dict info := by
    constructor
    · intro h
      obtain ⟨_, hd, h⟩ := h
      cases hd
      exact h
    · intro h
      exact ⟨dict, rfl, h⟩
  rw [hobject, ← hfull, ← hreads]
  unfold load
  dsimp only
  split
  · next hmissing =>
    rw [Bool.and_eq_true, Bool.not_eq_true'] at hmissing
    constructor
    · intro _
      exact Or.inl ⟨hmissing.1, by rw [hmissing.2]; exact Bool.false_ne_true⟩
    · intro _ x h
      cases h
  · next hmissing =>
    constructor
    · intro h
      refine Or.inr ?_
      cases hr : readMembers (.object dict) ((lookup (ascii "info") dict).getD .null) with
      | value m => exact ⟨m, rfl⟩
      | nullopt => exact absurd hr (readMembers_not_nullopt dict _)
      | throws x => exact absurd hr (h x)
    · intro h x hx
      rcases h with ⟨hs, hn⟩ | ⟨m, hm⟩
      · refine hmissing ?_
        rw [hs, Bool.eq_false_iff.mpr hn]
        rfl
      · rw [hm] at hx
        cases hx

/-- Looked for and found, and found with the type it is read as. -/
theorem typed_member_iff {α : Type} {mk : α → Json} {key : Bytes} {m : List (Bytes × Json)} :
    ((lookup key m).isSome = true ∧ ∀ v, lookup key m = some v → ∃ a, v = mk a) ↔
      ∃ a, lookup key m = some (mk a) := by
  cases lookup key m with
  | none => simp
  | some v => simp

theorem load_value_iff (dict : List (Bytes × Json)) :
    (∃ m, load true dict = .value m) ↔ Complete (.object dict) := by
  have hfull := isFullMeta_iff dict
  have hreads := readMembers_value_iff dict ((lookup (ascii "info") dict).getD .null)
  simp only [getD_object_iff] at hreads
  have hload : (∃ m, load true dict = .value m) ↔
      isFullMeta (.object dict) ((lookup (ascii "info") dict).getD .null) = true ∧
        ∃ m, readMembers (.object dict) ((lookup (ascii "info") dict).getD .null) = .value m := by
    unfold load
    dsimp only
    cases isFullMeta (.object dict) ((lookup (ascii "info") dict).getD .null) with
    | true => simp
    | false => simp
  rw [hload, hfull, hreads]
  constructor
  · intro h
    obtain ⟨⟨info, hinfo, hpresent⟩, info', hinfo', htyped⟩ := h
    obtain rfl : info = info' := Json.object.inj (Option.some.inj (hinfo.symm.trans hinfo'))
    obtain ⟨a, ha⟩ := typed_member_iff.mp ⟨hpresent.announce, htyped.announce⟩
    obtain ⟨l, hl⟩ := typed_member_iff.mp ⟨hpresent.length, htyped.length⟩
    obtain ⟨p, hp⟩ := typed_member_iff.mp ⟨hpresent.pieceLength, htyped.pieceLength⟩
    exact ⟨dict, info, a, l, p, rfl, hinfo, ha, hl, hp⟩
  · intro h
    obtain ⟨_, info, a, l, p, hd, hinfo, ha, hl, hp⟩ := h
    cases hd
    obtain ⟨hasAnnounce, hannounce⟩ := typed_member_iff.mpr ⟨a, ha⟩
    obtain ⟨hasLength, hlength⟩ := typed_member_iff.mpr ⟨l, hl⟩
    obtain ⟨hasPieceLength, hpieceLength⟩ := typed_member_iff.mpr ⟨p, hp⟩
    exact ⟨⟨info, hinfo, hasAnnounce, hasLength, hasPieceLength⟩,
      info, hinfo, hannounce, hlength, hpieceLength⟩

/-- What strict loading accepts. -/
theorem fromFile_strict_iff (torrentContent : Bytes) :
    (∃ m, fromFile torrentContent true = .value m) ↔
      ∃ e v, decodeBencodedValue torrentContent = .value (e, v) ∧ Complete v := by
  constructor
  · intro h
    obtain ⟨m, hm⟩ := h
    obtain ⟨e, dict, _, hdec, _⟩ := fromFile_strict hm
    rw [fromFile_object hdec] at hm
    exact ⟨e, .object dict, hdec, (load_value_iff dict).mp ⟨m, hm⟩⟩
  · intro h
    obtain ⟨e, v, hdec, hcomplete⟩ := h
    obtain ⟨dict, rfl⟩ : ∃ dict, v = .object dict := by
      obtain ⟨dict, _, _, _, _, hd, _⟩ := hcomplete
      exact ⟨dict, hd⟩
    rw [fromFile_object hdec]
    exact (load_value_iff dict).mpr hcomplete

/-- Loading throws nothing, and in strict mode accepts the complete files,
exactly when what the file is decoded to, if anything, can be loaded. -/
theorem fromFile_total_iff {torrentContent : Bytes}
    (hdec : ∀ x, decodeBencodedValue torrentContent ≠ .throws x) (strict : Bool) :
    ((∀ x, fromFile torrentContent strict ≠ .throws x) ∧
      (strict = true → ((∃ m, fromFile torrentContent strict = .value m) ↔
        ∃ e v, decodeBencodedValue torrentContent = .value (e, v) ∧ Complete v))) ↔
    ∀ e v, decodeBencodedValue torrentContent = .value (e, v) → Loadable strict v := by
  have hstrict : strict = true → ((∃ m, fromFile torrentContent strict = .value m) ↔
      ∃ e v, decodeBencodedValue torrentContent = .value (e, v) ∧ Complete v) := by
    intro hs
    rw [hs]
    exact fromFile_strict_iff torrentContent
  rw [and_iff_left hstrict]
  cases hd : decodeBencodedValue torrentContent with
  | throws x => exact absurd hd (hdec x)
  | nullopt =>
    rw [fromFile_nullopt hd]
    constructor
    · intro _ e v h
      cases h
    · intro _ x h
      cases h
  | value d =>
    obtain ⟨e, v⟩ := d
    by_cases hobject : ∃ dict, v = .object dict
    · obtain ⟨dict, rfl⟩ := hobject
      rw [fromFile_object hd, load_not_throws_iff]
      constructor
      · intro h e' v' hv
        cases hv
        exact h
      · intro h
        exact h e _ rfl
    · have hv : ∀ dict, v ≠ .object dict := fun dict h => hobject ⟨dict, h⟩
      rw [fromFile_not_object hd hv]
      constructor
      · intro h
        exact absurd rfl (h _)
      · intro h
        obtain ⟨dict, hdict, _⟩ := h e v rfl
        exact absurd hdict (hv dict)

theorem fromFile_total_iff_onePiece :
    ((∀ x, fromFile onePieceText false ≠ .throws x) ∧
      (false = true → ((∃ m, fromFile onePieceText false = .value m) ↔
        ∃ e v, decodeBencodedValue onePieceText = .value (e, v) ∧ Complete v))) ↔
    ∀ e v, decodeBencodedValue onePieceText = .value (e, v) → Loadable false v :=
  @fromFile_total_iff onePieceText (fun x h => by
    have hvalue : decodeBencodedValue onePieceText =
      .value (⟨.dictionary, onePieceText⟩, onePiece.raw) := rfl
    cases hvalue.symm.trans h) false

/-- An integer is no dictionary to read `info` from. -/
theorem fromFile_throws_on_integer :
    ¬ ∀ (torrentContent : Bytes) (strict : Bool),
      (∀ x, decodeBencodedValue torrentContent ≠ .throws x) →
      (∀ x, fromFile torrentContent strict ≠ .throws x) ∧
        (strict = true → ((∃ m, fromFile torrentContent strict = .value m) ↔
          ∃ e v, decodeBencodedValue torrentContent = .value (e, v) ∧ Complete v)) := by
  intro h
  have hdec : decodeBencodedValue (ascii "i1e") = .value (⟨.integer, ascii "i1e"⟩, .numberInteger 1) :=
    rfl
  refine (h (ascii "i1e") true fun x hx => ?_).1 _ (fromFile_not_object hdec (fun dict hd => ?_) true)
  · cases hdec.symm.trans hx
  · cases hd

end Bittorrent.Torrent

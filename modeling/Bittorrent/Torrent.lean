import Bittorrent.Bencode.Canonical
import Bittorrent.Misc.Sha1

/-! Metainfo of a torrent file: loading, the info hash and the piece hashes.
The info hash is taken of a re-encoding of the decoded info dictionary;
`hash_of_info` says when that is the hash of the bytes in the file. -/

namespace Bittorrent.Torrent

open Lib Lib.OrderedMap Lib.Bencode Bencode Misc

structure Metainfo where
  raw : Json
  announce : Bytes
  length : Int
  pieceLength : Int

def metainfo (torrentContent : Bytes) : Outcome Json := do
  let (_, decodedValue) ← decodeBencodedValue torrentContent
  .value decodedValue

def fromFile (torrentContent : Bytes) (strict : Bool) : Outcome Metainfo := do
  let metainfoJson ← metainfo torrentContent
  let info ← Outcome.ofExcept (metainfoJson.value (ascii "info") .null)
  let isFullMeta := metainfoJson.contains (ascii "announce") &&
    metainfoJson.contains (ascii "info") && info.contains (ascii "length") &&
    info.contains (ascii "piece length")
  if strict && !isFullMeta then .nullopt
  else do
    let announce ← Outcome.ofExcept do
      (← metainfoJson.value (ascii "announce") (.string (ascii "unknown"))).getString
    let length ← Outcome.ofExcept do (← info.value (ascii "length") (.numberInteger 0)).getInteger
    let pieceLength ← Outcome.ofExcept do
      (← info.value (ascii "piece length") (.numberInteger 0)).getInteger
    .value ⟨metainfoJson, announce, length, pieceLength⟩

namespace Metainfo

def hash (sha1 : Bytes → Digest) (metainfo : Metainfo) : Except Exception Bytes := do
  let info ← metainfo.raw.value (ascii "info") .null
  let malformed := Exception.runtimeError
    "Can not calculate hash because \"info\" is not exist or malformed"
  match encode info with
  | none => .error malformed
  | some encodedInfo =>
    if info.empty then .error malformed else .ok (hex (sha1 encodedInfo).bytes)

/-- The loop over the pieces string; the last step past a remainder leaves the string. -/
def piecesFrom : Nat → Bytes → Except Exception (List Bytes)
  | 0, _ => .ok []
  | fuel + 1, iter =>
    if iter = [] then .ok []
    else if iter.length < pieceHashLength then .error (.undefined "iterator past the end")
    else do
      let pieces ← piecesFrom fuel (iter.drop pieceHashLength)
      .ok (iter.take pieceHashLength :: pieces)

def pieces (metainfo : Metainfo) : Except Exception (List Bytes) := do
  let info ← metainfo.raw.value (ascii "info") .null
  let piecesBytes ← (← info.value (ascii "pieces") (.binary [])).getBinary
  piecesFrom piecesBytes.length piecesBytes

end Metainfo

/-- A hash is forty digits of a digest. -/
theorem Metainfo.hash_ok {sha1 : Bytes → Digest} {metainfo : Metainfo} {hash : Bytes}
    (h : metainfo.hash sha1 = .ok hash) : ∃ digest : Digest, hash = hex digest.bytes := by
  obtain ⟨info, _, h₁⟩ := except_bind_eq_ok.mp h
  cases he : encode info with
  | none =>
    rw [he] at h₁
    cases h₁
  | some encodedInfo =>
    rw [he] at h₁
    dsimp only at h₁
    split at h₁
    · cases h₁
    · cases h₁
      exact ⟨_, rfl⟩

theorem Metainfo.hash_error {sha1 : Bytes → Digest} {metainfo : Metainfo} {e : Exception}
    (h : metainfo.hash sha1 = .error e) : e.caught = true := by
  unfold Metainfo.hash at h
  cases hi : metainfo.raw.value (ascii "info") .null with
  | error e' =>
    rw [hi] at h
    cases h
    unfold Json.value at hi
    split at hi <;> cases hi
    rfl
  | ok info =>
    rw [hi] at h
    simp only [bind, Except.bind] at h
    cases he : encode info with
    | none =>
      rw [he] at h
      cases h
      rfl
    | some encodedInfo =>
      rw [he] at h
      dsimp only at h
      split at h
      · cases h
        rfl
      · cases h

/-! ## The info dictionary in the file -/

/-- The entries of a dictionary in the order of the file, each with the value
decoded for it and the text of that value. -/
def dictEntries (decode : Bytes → Outcome DecodedValue) :
    Nat → Bytes → Outcome (List (Bytes × DecodedValue))
  | 0, _ => .throws .outOfFuel
  | fuel + 1, remaining =>
    if remaining.head? = some endSymbol then .value []
    else do
      let (encodedKey, key) ← decodeString remaining
      let remaining := remaining.drop encodedKey.value.length
      let (encodedValue, value) ← decode remaining
      let key ← Outcome.ofExcept key.getString
      let entries ← dictEntries decode fuel (remaining.drop encodedValue.value.length)
      .value ((key, (encodedValue, value)) :: entries)

/-- The bytes that encode the value of the first top-level `info`. -/
def infoText (torrentContent : Bytes) : Option Bytes :=
  let inside := torrentContent.drop 1
  match dictEntries decodeBencodedValue (inside.length + 1) inside with
  | .value entries => (lookup (ascii "info") entries).map fun decoded => decoded.1.value
  | _ => none

/-- The dictionary loop builds its map from these entries. -/
theorem dictLoop_entries {decode : Bytes → Outcome DecodedValue} (fuel : Nat) :
    ∀ {remaining dict remaining' dict'},
      dictLoop decode fuel remaining dict = .value (remaining', dict') →
      ∃ entries, dictEntries decode fuel remaining = .value entries ∧
        dict' = insertAll dict (entries.map fun e => (e.1, e.2.2)) ∧
        ∀ e ∈ entries, ∃ p r, remaining = p ++ r ∧ decode r = .value e.2 := by
  induction fuel with
  | zero =>
    intro _ _ _ _ h
    cases h
  | succ fuel ih =>
    intro remaining dict remaining' dict' h
    rw [dictLoop] at h
    rw [dictEntries]
    split at h
    · next hend =>
      cases h
      exact ⟨[], if_pos hend, rfl, by simp⟩
    · next hend =>
      obtain ⟨⟨encodedKey, key⟩, hk, h⟩ := Outcome.bind_eq_value.mp h
      obtain ⟨⟨encodedValue, value⟩, hv, h⟩ := Outcome.bind_eq_value.mp h
      obtain ⟨keyString, hs, h⟩ := Outcome.bind_eq_value.mp h
      obtain ⟨entries, he, hd, hall⟩ := ih h
      refine ⟨(keyString, (encodedValue, value)) :: entries, ?_, hd, ?_⟩
      · rw [if_neg hend, hk]
        simp only [Outcome.value_bind, hv, hs, he]
      · intro e hm
        rcases List.mem_cons.mp hm with rfl | hm
        · exact ⟨_, _, (List.take_append_drop _ _).symm, hv⟩
        · obtain ⟨p, r, hr, hdec⟩ := hall e hm
          refine ⟨remaining.take encodedKey.value.length ++
            (remaining.drop encodedKey.value.length).take encodedValue.value.length ++ p, r, ?_, hdec⟩
          rw [List.append_assoc, ← hr, List.append_assoc, List.take_append_drop,
            List.take_append_drop]

theorem lookup_map {α β : Type} (k : Bytes) (f : α → β) (es : List (Bytes × α)) :
    lookup k (es.map fun e => (e.1, f e.2)) = (lookup k es).map f := by
  induction es with
  | nil => rfl
  | cons e es ih =>
    obtain ⟨k', a⟩ := e
    rw [List.map_cons, lookup_cons, lookup_cons, ih]
    split <;> rfl

theorem contains_iff {j : Json} {key : Bytes} :
    j.contains key = true ↔ ∃ m v, j = .object m ∧ lookup key m = some v := by
  cases j with
  | object m => simp [Json.contains, Option.isSome_iff_exists]
  | _ => simp [Json.contains]

/-- What strict loading asks of a file. -/
theorem fromFile_strict {torrentContent : Bytes} {m : Metainfo}
    (h : fromFile torrentContent true = .value m) :
    ∃ e dict info, decodeBencodedValue torrentContent = .value (e, .object dict) ∧
      m.raw = .object dict ∧ lookup (ascii "info") dict = some info ∧
      info.contains (ascii "length") = true ∧ info.contains (ascii "piece length") = true := by
  unfold fromFile metainfo at h
  obtain ⟨j, hj, h⟩ := Outcome.bind_eq_value.mp h
  obtain ⟨⟨e, j'⟩, hdec, hj⟩ := Outcome.bind_eq_value.mp hj
  cases hj
  obtain ⟨info, hinfo, h⟩ := Outcome.bind_eq_value.mp h
  rw [Outcome.ofExcept_eq_value] at hinfo
  dsimp only at h
  split at h
  · cases h
  · next hfull =>
    simp only [Bool.true_and, Bool.not_eq_true', Bool.not_eq_false, Bool.and_eq_true] at hfull
    obtain ⟨⟨⟨_, hi⟩, hl⟩, hp⟩ := hfull
    obtain ⟨dict, info', rfl, hlook⟩ := contains_iff.mp hi
    have hsame : info = info' := by
      rw [Json.value, hlook] at hinfo
      exact (Except.ok.inj hinfo).symm
    subst hsame
    obtain ⟨_, _, h⟩ := Outcome.bind_eq_value.mp h
    obtain ⟨_, _, h⟩ := Outcome.bind_eq_value.mp h
    obtain ⟨_, _, h⟩ := Outcome.bind_eq_value.mp h
    cases h
    exact ⟨e, dict, info, hdec, rfl, hlook, hl, hp⟩

/-- The info value of an accepted file, and the bytes it was decoded from. -/
theorem infoText_of_fromFile {torrentContent : Bytes} {m : Metainfo}
    (h : fromFile torrentContent true = .value m) :
    ∃ p r e info, torrentContent = p ++ r ∧ decodeBencodedValue r = .value (e, info) ∧
      infoText torrentContent = some e.value ∧
      m.raw.value (ascii "info") .null = .ok info ∧ info.empty = false := by
  obtain ⟨e, dict, info, hdec, hraw, hlook, hlen, _⟩ := fromFile_strict h
  have hloop : ∃ remaining, dictLoop decodeBencodedValue ((torrentContent.drop 1).length + 1)
      (torrentContent.drop 1) [] = .value (remaining, dict) := by
    rcases decode_cases hdec with ⟨_, h⟩ | ⟨_, h⟩ | ⟨_, h⟩ | ⟨_, h⟩
    · obtain ⟨_, _, _, _, hd⟩ := decodeInteger_eq_value h
      cases hd
    · obtain ⟨_, _, _, _, _, hd⟩ := decodeString_eq_value h
      have := congrArg Prod.snd hd
      simp only [denoteString] at this
      split at this <;> cases this
    · obtain ⟨_, _, _, hd⟩ := decodeBencodedList_eq_value h
      cases hd
    · obtain ⟨remaining, _, hl, hd⟩ := decodeBencodedDict_eq_value h
      cases hd
      exact ⟨remaining, hl⟩
  obtain ⟨remaining, hl⟩ := hloop
  obtain ⟨entries, he, hdict, hall⟩ := dictLoop_entries _ hl
  have hfirst : (lookup (ascii "info") entries).map Prod.snd = some info := by
    rw [← lookup_map, ← hlook, hdict, ← lookup_ofList]
    rfl
  obtain ⟨⟨einfo, info'⟩, hentry, hinfo⟩ := Option.map_eq_some_iff.mp hfirst
  dsimp only at hinfo
  subst hinfo
  obtain ⟨p, r, hr, hdecr⟩ := hall _ (mem_of_lookup hentry)
  refine ⟨torrentContent.take 1 ++ p, r, einfo, info', ?_, hdecr, ?_, ?_, ?_⟩
  · rw [List.append_assoc, ← hr, List.take_append_drop]
  · simp only [infoText, he, hentry, Option.map_some]
  · rw [hraw, Json.value, hlook]
    rfl
  · obtain ⟨members, v, rfl, hmem⟩ := contains_iff.mp hlen
    cases members with
    | nil => cases hmem
    | cons _ _ => rfl

/-- `hash` never fails on an accepted file. It hashes the canonical form of the
info dictionary, which is the text in the file exactly when that is canonical. -/
theorem hash_of_info {torrentContent : Bytes} {m : Metainfo} (sha1 : Bytes → Digest)
    (h : fromFile torrentContent true = .value m) :
    ∃ p text q info encodedInfo, torrentContent = p ++ (text ++ q) ∧
      infoText torrentContent = some text ∧ m.raw.value (ascii "info") .null = .ok info ∧
      encode info = some encodedInfo ∧ m.hash sha1 = .ok (hex (sha1 encodedInfo).bytes) ∧
      (encodedInfo = text ↔ ∃ x, Derives canonical text (.value x)) := by
  obtain ⟨p, r, e, info, hcontent, hdec, htext, hinfo, hempty⟩ := infoText_of_fromFile h
  obtain ⟨q, hr⟩ := decode_prefix hdec
  obtain ⟨encodedInfo, henc, hiff⟩ := encode_consumed hdec
  refine ⟨p, e.value, q, info, encodedInfo, by rw [hcontent, hr], htext, hinfo, henc, ?_, hiff⟩
  rw [Metainfo.hash, hinfo]
  simp only [bind, Except.bind, henc, hempty]
  rfl

/-- A torrent of one byte without piece hashes. -/
def oneByte : Metainfo where
  raw := .object [(ascii "announce", .string (ascii "a")),
    (ascii "info", .object [(ascii "length", .numberInteger 1),
      (ascii "piece length", .numberInteger 1)])]
  announce := ascii "a"
  length := 1
  pieceLength := 1

private theorem fromFile_oneByte {torrentContent : Bytes} {e : EncodedValue}
    (h : decodeBencodedValue torrentContent = .value (e, oneByte.raw)) :
    fromFile torrentContent true = .value oneByte := by
  unfold fromFile metainfo
  rw [h]
  rfl

theorem hash_of_info_oneByte :
    ∃ p text q info encodedInfo,
      ascii "d8:announce1:a4:infod6:lengthi1e12:piece lengthi1eee" = p ++ (text ++ q) ∧
      infoText (ascii "d8:announce1:a4:infod6:lengthi1e12:piece lengthi1eee") = some text ∧
      oneByte.raw.value (ascii "info") .null = .ok info ∧
      encode info = some encodedInfo ∧
      oneByte.hash lengthDigest = .ok (hex (lengthDigest encodedInfo).bytes) ∧
      (encodedInfo = text ↔ ∃ x, Derives canonical text (.value x)) :=
  hash_of_info lengthDigest (fromFile_oneByte (e := ⟨.dictionary,
    ascii "d8:announce1:a4:infod6:lengthi1e12:piece lengthi1eee"⟩) rfl)

/-- A leading zero in the length is read, and lost in the hash. -/
theorem hash_differs_from_info :
    ¬ ∀ (sha1 : Bytes → Digest) (torrentContent : Bytes) (m : Metainfo) (text : Bytes),
      fromFile torrentContent true = .value m → infoText torrentContent = some text →
      m.hash sha1 = .ok (hex (sha1 text).bytes) := by
  intro h
  have hbad := h lengthDigest (ascii "d8:announce1:a4:infod6:lengthi01e12:piece lengthi1eee")
    oneByte (ascii "d6:lengthi01e12:piece lengthi1ee")
    (fromFile_oneByte (e := ⟨.dictionary,
      ascii "d8:announce1:a4:infod6:lengthi01e12:piece lengthi1eee"⟩) rfl) rfl
  exact absurd hbad (by decide +kernel)

/-- A torrent of one byte in one piece, with a hash of all ones. -/
def onePiece : Metainfo where
  raw := .object [(ascii "announce", .string (ascii "a")),
    (ascii "info", .object [(ascii "length", .numberInteger 1),
      (ascii "piece length", .numberInteger 2),
      (ascii "pieces", .binary (List.replicate 20 0xFF))])]
  announce := ascii "a"
  length := 1
  pieceLength := 2

def onePieceText : Bytes :=
  ascii "d8:announce1:a4:infod6:lengthi1e12:piece lengthi2e6:pieces20:" ++ List.replicate 20 0xFF ++
    ascii "ee"

theorem fromFile_onePiece : fromFile onePieceText true = .value onePiece := by
  have h : decodeBencodedValue onePieceText = .value (⟨.dictionary, onePieceText⟩, onePiece.raw) :=
    rfl
  unfold fromFile metainfo
  rw [h]
  rfl

/-- A torrent of two pieces of one byte. -/
def twoPieces : Metainfo where
  raw := .object [(ascii "announce", .string (ascii "a")),
    (ascii "info", .object [(ascii "length", .numberInteger 2),
      (ascii "piece length", .numberInteger 1),
      (ascii "pieces", .binary (List.replicate 40 0xFF))])]
  announce := ascii "a"
  length := 2
  pieceLength := 1

def twoPiecesText : Bytes :=
  ascii "d8:announce1:a4:infod6:lengthi2e12:piece lengthi1e6:pieces40:" ++ List.replicate 40 0xFF ++
    ascii "ee"

theorem fromFile_twoPieces : fromFile twoPiecesText true = .value twoPieces := by
  have h : decodeBencodedValue twoPiecesText =
    .value (⟨.dictionary, twoPiecesText⟩, twoPieces.raw) := rfl
  unfold fromFile metainfo
  rw [h]
  rfl

end Bittorrent.Torrent

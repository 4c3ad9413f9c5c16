import Bittorrent.Published

/-! What `info` and `peers` do on any file. `info` ends without an exit code of
its own on the files with members of the wrong types, the piece hashes among them,
and reads behind piece hashes that are not whole (`info_ends`). What `peers`
prints is as good as the binary list of the tracker (`peers_prints`). -/

namespace Bittorrent.Main

open Lib Lib.Bencode Lib.Chunks Lib.Decimal Lib.Exec Lib.OrderedMap Bencode Client Misc Net Torrent

/-! ## Loading -/

/-- A typed read of a member throws nothing else. -/
theorem read_throws {α : Type} {get : Json → Except Exception α}
    (hget : ∀ v e, get v = .error e → ∃ id, e = .typeError id) {v dflt : Json} {key : Bytes}
    {e : Exception} (h : (v.value key dflt >>= get) = .error e) : ∃ id, e = .typeError id := by
  cases v with
  | object members => exact hget _ _ h
  | _ => exact ⟨306, (Except.error.inj h).symm⟩

theorem getString_throws (v : Json) (e : Exception) (h : v.getString = .error e) :
    ∃ id, e = .typeError id := by
  cases v with
  | string s => cases h
  | _ => exact ⟨302, (Except.error.inj h).symm⟩

theorem getInteger_throws (v : Json) (e : Exception) (h : v.getInteger = .error e) :
    ∃ id, e = .typeError id := by
  cases v with
  | numberInteger i => cases h
  | _ => exact ⟨302, (Except.error.inj h).symm⟩

theorem ofExcept_bind_throws {α β : Type} {x : Except Exception α} {f : α → Outcome β} {e : Exception}
    (h : (Outcome.ofExcept x >>= f) = .throws e) : x = .error e ∨ ∃ a, f a = .throws e := by
  cases x with
  | ok a => exact .inr ⟨a, h⟩
  | error e' => exact .inl (congrArg Except.error (Outcome.throws.inj h))

theorem readMembers_throws {metainfoJson info : Json} {e : Exception}
    (h : readMembers metainfoJson info = .throws e) : ∃ id, e = .typeError id := by
  rcases ofExcept_bind_throws h with h | ⟨_, h⟩
  · exact read_throws getString_throws h
  rcases ofExcept_bind_throws h with h | ⟨_, h⟩
  · exact read_throws getInteger_throws h
  rcases ofExcept_bind_throws h with h | ⟨_, h⟩
  · exact read_throws getInteger_throws h
  · cases h

theorem load_throws {strict : Bool} {dict : List (Bytes × Json)} {e : Exception}
    (h : load strict dict = .throws e) : ∃ id, e = .typeError id := by
  unfold load at h
  dsimp only at h
  split at h
  · cases h
  · exact readMembers_throws h

/-- What strict loading makes of a file that is decoded. -/
theorem fromFile_decoded {content : Bytes} {e : EncodedValue} {v : Json}
    (h : decodeBencodedValue content = .value (e, v)) :
    (Complete v → ∃ m, fromFile content true = .value m) ∧
    (¬ Loadable true v → ∃ id, fromFile content true = .throws (.typeError id)) ∧
    (Loadable true v → ¬ Complete v → fromFile content true = .nullopt) := by
  by_cases hobject : ∃ dict, v = .object dict
  · obtain ⟨dict, rfl⟩ := hobject
    rw [fromFile_object h, ← load_value_iff, ← load_not_throws_iff]
    refine ⟨id, fun hthrows => ?_, fun hquiet hnone => ?_⟩
    · obtain ⟨x, hx⟩ := not_forall_not.mp hthrows
      obtain ⟨id, rfl⟩ := load_throws hx
      exact ⟨id, hx⟩
    · cases hload : load true dict with
      | value m => exact absurd ⟨m, hload⟩ hnone
      | nullopt => rfl
      | throws x => exact absurd hload (hquiet x)
  · have hthrows := fromFile_not_object h (fun dict hv => hobject ⟨dict, hv⟩) true
    have hnot : ¬ Loadable true v := fun ⟨dict, hv, _⟩ => hobject ⟨dict, hv⟩
    refine ⟨fun ⟨dict, _, _, _, _, hv, _⟩ => absurd ⟨dict, hv⟩ hobject, fun _ => ⟨306, hthrows⟩, ?_⟩
    exact fun hload => absurd hload hnot

/-- The piece hashes are missing, or of this kind. -/
def PiecesAre (P : Json → Prop) (v : Json) : Prop :=
  ∃ dict info, v = .object dict ∧ lookup (ascii "info") dict = some (.object info) ∧
    ∀ p, lookup (ascii "pieces") info = some p → P p

def BinaryPieces : Json → Prop := PiecesAre fun p => ∃ b, p = .binary b

/-- A binary of whole hashes, if there are any. -/
def Hashed : Json → Prop := PiecesAre fun p => ∃ b, p = .binary b ∧ pieceHashLength ∣ b.length

theorem piecesAre_iff {P : Json → Prop} {v : Json} {dict info : List (Bytes × Json)}
    (hv : v = .object dict) (hinfo : lookup (ascii "info") dict = some (.object info)) :
    PiecesAre P v ↔ ∀ p, lookup (ascii "pieces") info = some p → P p := by
  constructor
  · intro h
    obtain ⟨dict', info', hv', hinfo', h⟩ := h
    obtain rfl : dict = dict' := Json.object.inj (hv.symm.trans hv')
    obtain rfl : info = info' := Json.object.inj (Option.some.inj (hinfo.symm.trans hinfo'))
    exact h
  · exact fun h => ⟨dict, info, hv, hinfo, h⟩

theorem Hashed.binaryPieces {v : Json} (h : Hashed v) : BinaryPieces v := by
  obtain ⟨dict, info, hv, hinfo, h⟩ := h
  refine ⟨dict, info, hv, hinfo, fun p hp => ?_⟩
  obtain ⟨b, hb, _⟩ := h p hp
  exact ⟨b, hb⟩

/-- The wrong type is an exception. A binary of another length is read behind its end. -/
theorem pieces_of_loaded {content : Bytes} {m : Metainfo} (h : fromFile content true = .value m) :
    (Hashed m.raw → ∃ hashes, m.pieces = .ok hashes) ∧
    (¬ BinaryPieces m.raw → m.pieces = .error (.typeError 302)) ∧
    (BinaryPieces m.raw → ¬ Hashed m.raw → m.pieces = .error (.undefined "iterator past the end")) := by
  obtain ⟨e, dict, info, hdec, hraw, hlook, hlength, _⟩ := fromFile_strict h
  obtain ⟨members, _, rfl, _⟩ := contains_iff.mp hlength
  have hbytes : m.piecesBytes = ((lookup (ascii "pieces") members).getD (.binary [])).getBinary := by
    rw [Metainfo.piecesBytes, hraw]
    simp only [Json.value, hlook]
    rfl
  rw [Hashed, BinaryPieces, piecesAre_iff hraw hlook, piecesAre_iff hraw hlook]
  cases hpieces : lookup (ascii "pieces") members with
  | none =>
    rw [hpieces] at hbytes
    refine ⟨fun _ => ⟨_, (pieces_of_bytes hbytes).1 (Nat.dvd_zero _)⟩, fun hnot => ?_, fun _ hnot => ?_⟩
    · exact absurd (fun p hp => by cases hp) hnot
    · exact absurd (fun p hp => by cases hp) hnot
  | some p =>
    rw [hpieces] at hbytes
    by_cases hbinary : ∃ b, p = .binary b
    · obtain ⟨b, rfl⟩ := hbinary
      refine ⟨fun hwhole => ?_, fun hnot => ?_, fun _ hnot => ?_⟩
      · obtain ⟨b', hb', hdvd⟩ := hwhole _ rfl
        cases hb'
        exact ⟨_, (pieces_of_bytes hbytes).1 hdvd⟩
      · exact absurd (fun p hp => ⟨b, (Option.some.inj hp).symm⟩) hnot
      · have hdvd : ¬ pieceHashLength ∣ b.length := fun hdvd => hnot fun p hp =>
          ⟨b, (Option.some.inj hp).symm, hdvd⟩
        exact (pieces_of_bytes hbytes).2 hdvd
    · have hthrows : m.pieces = .error (.typeError 302) := by
        rw [pieces_eq, hbytes, Option.getD_some]
        cases p with
        | binary b => exact absurd ⟨b, rfl⟩ hbinary
        | _ => rfl
      refine ⟨fun hwhole => ?_, fun _ => hthrows, fun hall => absurd (hall p rfl) hbinary⟩
      obtain ⟨b, hb, _⟩ := hwhole p rfl
      exact absurd ⟨b, hb⟩ hbinary

/-- The info dictionary of a loaded file can be hashed. -/
theorem hash_of_loaded {content : Bytes} {m : Metainfo} (h : fromFile content true = .value m) :
    ∃ text, m.hash Misc.sha1 = .ok text := by
  obtain ⟨_, _, e, value, _, hdec, _, hvalue, hempty⟩ := infoText_of_fromFile h
  obtain ⟨encodedInfo, hencode, _⟩ := encode_consumed hdec
  rw [Metainfo.hash, hvalue]
  simp only [bind, Except.bind, hencode, hempty]
  exact ⟨_, rfl⟩

/-! ## The ends of `info` -/

section
variable {Handle : Type} {world : World Handle} {path content : Bytes}

theorem main_info_throws (rounds : Nat) (hpath : world.fileAt path = some content) {id : Nat}
    (h : fromFile content true = .throws (.typeError id)) :
    main world rounds [ascii "info", path] = .uncaught (.typeError id) := by
  rw [main, commandLine_info, infoCommand, hpath]
  dsimp only
  rw [bind_of_error (readMetainfo_throws h {})]
  rfl

theorem main_info_nullopt (rounds : Nat) (hpath : world.fileAt path = some content)
    (h : fromFile content true = .nullopt) :
    main world rounds [ascii "info", path] =
      .exit .fail { stdout := world.errorLine (ascii "Error while file decoding: " ++ path) } := by
  rw [main, commandLine_info, infoCommand, hpath]
  dsimp only
  rw [bind_of_ok (readMetainfo_none h {})]
  rfl

theorem main_info_value (rounds : Nat) (hpath : world.fileAt path = some content) {m : Metainfo}
    (h : fromFile content true = .value m) :
    (Hashed m.raw → ∃ t, main world rounds [ascii "info", path] = .exit .success t) ∧
    (¬ BinaryPieces m.raw → main world rounds [ascii "info", path] = .uncaught (.typeError 302)) ∧
    (BinaryPieces m.raw → ¬ Hashed m.raw →
      main world rounds [ascii "info", path] = .undefined "iterator past the end") := by
  obtain ⟨hash, hhash⟩ := hash_of_loaded h
  obtain ⟨hreturns, hthrows, hleaves⟩ := pieces_of_loaded h
  rw [main, commandLine_info, infoCommand_loaded hpath h hhash]
  refine ⟨fun hhashed => ?_, fun hbinary => ?_, fun hbinary hhashed => ?_⟩
  · obtain ⟨hashes, hpieces⟩ := hreturns hhashed
    rw [printHashes_ok hpieces]
    exact ⟨_, rfl⟩
  · rw [printHashes_error (hthrows hbinary)]
    rfl
  · rw [printHashes_error (hleaves hbinary hhashed)]
    rfl

theorem fromFile_throws {e : Exception} (h : decodeBencodedValue content = .throws e) (strict : Bool) :
    fromFile content strict = .throws e := by
  rw [fromFile, metainfo, h]
  rfl

end

/-- The four ends of `info`. With the exit code of success it ends on a complete
file whose piece hashes, if any, are a binary of whole hashes. It ends by an
exception that no one catches on a key that is not UTF-8 and on a member of the
wrong type, piece hashes that are text among them; of a binary that is not whole
hashes it reads what is behind it. On what else there is, a text that is refused and
a dictionary in which a key is missing, it names the file in the one line of the log
and ends with the exit code of a failure. -/
theorem info_ends {Handle : Type} {world : World Handle} {path content : Bytes}
    (hpath : world.fileAt path = some content) (rounds : Nat) :
    let ended := main world rounds [ascii "info", path]
    ((∃ t, ended = .exit .success t) ↔
      ∃ e v, decodeBencodedValue content = .value (e, v) ∧ Complete v ∧ Hashed v) ∧
    ((∃ x, ended = .uncaught x) ↔ BinaryKey .value content ∨
      ∃ e v, decodeBencodedValue content = .value (e, v) ∧
        (¬ Loadable true v ∨ Complete v ∧ ¬ BinaryPieces v)) ∧
    ((∃ what, ended = .undefined what) ↔ ∃ e v, decodeBencodedValue content = .value (e, v) ∧
      Complete v ∧ BinaryPieces v ∧ ¬ Hashed v) ∧
    (ended = .exit .fail { stdout := world.errorLine (ascii "Error while file decoding: " ++ path) } ↔
      (¬ BinaryKey .value content ∧ ¬ ∃ r, Reads .value content r) ∨
      ∃ e v, decodeBencodedValue content = .value (e, v) ∧ Loadable true v ∧ ¬ Complete v) := by
  intro ended
  rw [← throws_iff, ← decodes_iff]
  cases hdec : decodeBencodedValue content with
  | nullopt =>
    have hend : ended = .exit .fail _ := main_info_nullopt rounds hpath (fromFile_nullopt hdec true)
    simp [hend]
  | throws e =>
    have hend : ended = .uncaught (.typeError 302) := by
      have hbinary := (throws_iff.mp ⟨e, hdec⟩).thrownBy
      exact main_info_throws rounds hpath (fromFile_throws hbinary true)
    simp [hend]
  | value d =>
    obtain ⟨e, v⟩ := d
    obtain ⟨hvalue, hthrows, hnullopt⟩ := fromFile_decoded hdec
    by_cases hcomplete : Complete v
    · obtain ⟨m, hm⟩ := hvalue hcomplete
      have hloadable : Loadable true v := by
        by_contra hnot
        obtain ⟨id, h⟩ := hthrows hnot
        cases h.symm.trans hm
      obtain rfl : v = m.raw := by
        obtain ⟨_, _, _, hdec', hraw, _⟩ := fromFile_strict hm
        rw [hraw]
        exact (Prod.mk.inj (Outcome.value.inj (hdec.symm.trans hdec'))).2
      obtain ⟨hsuccess, huncaught, hundefined⟩ := main_info_value rounds hpath hm
      by_cases hhashed : Hashed m.raw
      · obtain ⟨t, hend⟩ := hsuccess hhashed
        have hend : ended = .exit .success t := hend
        have hbinary : BinaryPieces m.raw := hhashed.binaryPieces
        simp [hend, hcomplete, hhashed, hloadable, hbinary]
      · by_cases hbinary : BinaryPieces m.raw
        · have hend : ended = .undefined _ := hundefined hbinary hhashed
          simp [hend, hcomplete, hhashed, hloadable, hbinary]
        · have hend : ended = .uncaught _ := huncaught hbinary
          simp [hend, hcomplete, hhashed, hbinary]
    · by_cases hloadable : Loadable true v
      · have hend : ended = .exit .fail _ :=
          main_info_nullopt rounds hpath (hnullopt hloadable hcomplete)
        simp [hend, hcomplete, hloadable]
      · obtain ⟨id, h⟩ := hthrows hloadable
        have hend : ended = .uncaught (.typeError id) := main_info_throws rounds hpath h
        simp [hend, hcomplete, hloadable]

theorem info_ends_lone :
    let ended := main loneWorld 0 [ascii "info", ascii "a.torrent"]
    let content := torrentText (List.replicate 20 0xFF)
    ((∃ t, ended = .exit .success t) ↔
      ∃ e v, decodeBencodedValue content = .value (e, v) ∧ Complete v ∧ Hashed v) ∧
    ((∃ x, ended = .uncaught x) ↔ BinaryKey .value content ∨
      ∃ e v, decodeBencodedValue content = .value (e, v) ∧
        (¬ Loadable true v ∨ Complete v ∧ ¬ BinaryPieces v)) ∧
    ((∃ what, ended = .undefined what) ↔ ∃ e v, decodeBencodedValue content = .value (e, v) ∧
      Complete v ∧ BinaryPieces v ∧ ¬ Hashed v) ∧
    (ended = .exit .fail
        { stdout := loneWorld.errorLine (ascii "Error while file decoding: " ++ ascii "a.torrent") } ↔
      (¬ BinaryKey .value content ∧ ¬ ∃ r, Reads .value content r) ∨
      ∃ e v, decodeBencodedValue content = .value (e, v) ∧ Loadable true v ∧ ¬ Complete v) :=
  @info_ends _ loneWorld (ascii "a.torrent") _ rfl 0

/-! ## The lines of `peers` -/

/-- Digits, points and a colon. -/
theorem newline_notMem_listed {peers line : Bytes} (hwhole : peersChunkSizeBytes ∣ peers.length)
    (hline : line ∈ listed peers) : (10 : UInt8) ∉ line := by
  obtain ⟨c, hc, rfl⟩ := List.mem_map.mp hline
  have hlen := (chunk_exact peersChunkSizeBytes_pos (Nat.mul_div_cancel' hwhole).symm).2.1 c hc
  obtain ⟨b₀, b₁, b₂, b₃, b₄, b₅, rfl⟩ := exists_of_length_six hlen
  have hdigits (n : Nat) : (10 : UInt8) ∉ Decimal.print n := fun h =>
    absurd ((print_numeral n).2 10 h) (by decide)
  simp [decodeIpPortBinary_eq, hdigits]

/-- The lines that `peers` prints, parsed as the program parses an address, are
the list of the tracker. -/
theorem peers_prints {Handle : Type} {world : World Handle} {path content : Bytes} {m : Metainfo}
    {response peers : Bytes} (hpath : world.fileAt path = some content)
    (hm : fromFile content true = .value m) (hanswers : Answers world m response)
    (hresponse : ResponseText response peers) (rounds : Nat) :
    let lines := [10].intercalate (listed peers)
    main world rounds [ascii "peers", path] = .exit .success { stdout := lines ++ [10] } ∧
    (peers ≠ [] → ∃ pairs, (lines.splitOn 10).mapM parseIpPort = .ok pairs ∧
      pairs.flatMap encodeIpPort = peers) := by
  intro lines
  refine ⟨?_, fun hne => ?_⟩
  · have hcommand : commandLine world rounds [ascii "peers", path] = peersCommand world path := rfl
    rw [main, hcommand, peersCommand, hpath]
    dsimp only
    rw [bind_of_ok (readMetainfo_ok hm {})]
    simp only [hanswers.getPeers hresponse]
    rw [bind_of_ok (attempt_ok _ _), bind_of_ok (println_ok _ _)]
    rfl
  · obtain ⟨n, hn⟩ := hresponse.whole
    obtain ⟨_, hall, hflat⟩ := chunk_exact peersChunkSizeBytes_pos hn
    obtain ⟨pairs, hpairs, _, hencode⟩ := mapM_parseIpPort hall
    have hlines : lines.splitOn 10 = listed peers :=
      List.splitOn_intercalate 10 (fun _ hl => newline_notMem_listed hresponse.whole hl)
        (listed_ne_nil hresponse.whole hne)
    exact ⟨pairs, hlines ▸ hpairs, hencode.trans hflat⟩

theorem peers_prints_lone : ∃ m, fromFile (torrentText (List.replicate 20 0xFF)) true = .value m ∧
    let lines := [10].intercalate (listed lonePeers)
    main loneWorld 0 [ascii "peers", ascii "a.torrent"] = .exit .success { stdout := lines ++ [10] } ∧
    (lonePeers ≠ [] → ∃ pairs, (lines.splitOn 10).mapM parseIpPort = .ok pairs ∧
      pairs.flatMap encodeIpPort = lonePeers) := by
  obtain ⟨m, hm, _⟩ := torrentText_lone.loaded
  obtain ⟨url, hurl⟩ := announceUrl_textUrl (torrentText_lone.hash hm)
  have hanswers : Answers loneWorld m (responseWith lonePeers) := ⟨url, _, hurl, rfl, rfl⟩
  exact ⟨m, hm, peers_prints rfl hm hanswers responseText_lone 0⟩

end Bittorrent.Main

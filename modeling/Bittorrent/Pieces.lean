import Bittorrent.Lib.Chunks
import Bittorrent.Lib.Exec
import Bittorrent.Torrent

/-! The piece hashes of a torrent. The decoder makes a Json string of bytes that
are UTF-8 and a binary of others, and `pieces` reads only a binary
(`pieces_iff`); its loop leaves the binary unless the length is a multiple of
that of a hash (`pieces_bounded_iff`). -/

namespace Bittorrent.Torrent

open Lib Lib.Chunks Lib.Decimal Lib.Exec Lib.OrderedMap Lib.Bencode Bencode

/-- The binary `pieces` iterates over. -/
def Metainfo.piecesBytes (metainfo : Metainfo) : Except Exception Bytes := do
  let info ← metainfo.raw.value (ascii "info") .null
  (← info.value (ascii "pieces") (.binary [])).getBinary

theorem pieces_eq (metainfo : Metainfo) :
    metainfo.pieces = (metainfo.piecesBytes >>= fun b => Metainfo.piecesFrom b.length b) := by
  unfold Metainfo.pieces Metainfo.piecesBytes
  cases metainfo.raw.value (ascii "info") .null with
  | error e => rfl
  | ok info =>
    simp only [bind, Except.bind]
    cases info.value (ascii "pieces") (.binary []) with
    | error e => rfl
    | ok pieces => rfl

/-! ## The loop -/

theorem pieceHashLength_pos : 0 < pieceHashLength := Nat.zero_lt_succ 19

theorem piecesFrom_flatten {cs : List Bytes} (h : ∀ c ∈ cs, c.length = pieceHashLength) :
    ∀ {fuel : Nat}, cs.flatten.length ≤ fuel → Metainfo.piecesFrom fuel cs.flatten = .ok cs := by
  induction cs with
  | nil =>
    intro fuel _
    cases fuel with
    | zero => rfl
    | succ fuel => rfl
  | cons c cs ih =>
    intro fuel hfuel
    have hc : c.length = pieceHashLength := h c (by simp)
    rw [List.flatten_cons] at hfuel ⊢
    rw [List.length_append, hc] at hfuel
    obtain ⟨fuel, rfl⟩ := Nat.exists_eq_succ_of_ne_zero
      (Nat.ne_of_gt (Nat.lt_of_lt_of_le (Nat.add_pos_left pieceHashLength_pos _) hfuel))
    have hne : c ++ cs.flatten ≠ [] := by
      intro he
      rw [(List.append_eq_nil_iff.mp he).1] at hc
      cases hc
    have hlong : ¬ (c ++ cs.flatten).length < pieceHashLength := by
      rw [List.length_append, hc]
      omega
    have hle : cs.flatten.length ≤ fuel := by
      simp only [pieceHashLength] at hfuel
      omega
    have hrest := ih (fun d hd => h d (List.mem_cons_of_mem _ hd)) hle
    rw [Metainfo.piecesFrom, if_neg hne, if_neg hlong, List.drop_left' hc, List.take_left' hc, hrest]
    rfl

/-- With a remainder the loop steps over the end. -/
theorem piecesFrom_remainder (fuel : Nat) : ∀ {iter : Bytes}, iter.length ≤ fuel →
    ¬ pieceHashLength ∣ iter.length →
    Metainfo.piecesFrom fuel iter = .error (.undefined "iterator past the end") := by
  induction fuel with
  | zero =>
    intro iter hfuel hdvd
    rw [Nat.le_zero.mp hfuel] at hdvd
    exact absurd (Nat.dvd_zero _) hdvd
  | succ fuel ih =>
    intro iter hfuel hdvd
    have hne : iter ≠ [] := by
      rintro rfl
      exact hdvd (Nat.dvd_zero _)
    rw [Metainfo.piecesFrom, if_neg hne]
    by_cases hshort : iter.length < pieceHashLength
    · exact if_pos hshort
    · have hle := Nat.le_of_not_lt hshort
      have hdvd' : ¬ pieceHashLength ∣ (iter.drop pieceHashLength).length := by
        rw [List.length_drop]
        intro h
        refine hdvd ?_
        have := Nat.dvd_add h (Nat.dvd_refl pieceHashLength)
        rwa [Nat.sub_add_cancel hle] at this
      rw [if_neg hshort, ih (by rw [List.length_drop]; simp only [pieceHashLength]; omega) hdvd']
      rfl

/-- Of a binary of whole hashes `pieces` returns the hashes. -/
theorem pieces_of_bytes {metainfo : Metainfo} {piecesBytes : Bytes}
    (h : metainfo.piecesBytes = .ok piecesBytes) :
    (pieceHashLength ∣ piecesBytes.length →
      metainfo.pieces = .ok (chunk pieceHashLength piecesBytes)) ∧
    (¬ pieceHashLength ∣ piecesBytes.length →
      metainfo.pieces = .error (.undefined "iterator past the end")) := by
  have heq : metainfo.pieces = Metainfo.piecesFrom piecesBytes.length piecesBytes := by
    rw [pieces_eq, h]
    rfl
  rw [heq]
  constructor
  · intro hdvd
    obtain ⟨n, hn⟩ := hdvd
    obtain ⟨cs, _, hcs, rfl⟩ := exists_chunks n hn
    rw [piecesFrom_flatten hcs (Nat.le_refl _), chunk_flatten pieceHashLength_pos hcs]
  · exact piecesFrom_remainder _ (Nat.le_refl _)

/-- A pass of the loop, which only compares the iterator with the end of the binary. -/
def pieceStep : EStateM Exception Nat Unit := modify (· + pieceHashLength)

/-- The loop over a binary of `size` bytes ends, and in each pass the iterator
and the one behind the hash stay in the binary. -/
structure LoopBounded (size : Nat) : Prop where
  ends : ∃ passes, Iterates (· ≠ size) pieceStep 0 passes size
  inside : ∀ passes iter, Iterates (· ≠ size) pieceStep 0 passes iter → iter ≠ size →
    iter + pieceHashLength ≤ size

theorem head_position {size passes iter : Nat} (h : Iterates (· ≠ size) pieceStep 0 passes iter) :
    iter = pieceHashLength * passes := by
  refine h.rule (I := fun passes iter => iter = pieceHashLength * passes) rfl ?_
  intro passes iter iter' _ hiter _ hstep
  cases hstep
  rw [hiter, Nat.mul_succ]

theorem heads_up_to {size n : Nat} (hn : size = pieceHashLength * n) (passes : Nat) :
    passes ≤ n → Iterates (· ≠ size) pieceStep 0 passes (pieceHashLength * passes) := by
  induction passes with
  | zero =>
    intro _
    exact .zero
  | succ passes ih =>
    intro hle
    have hrun : pieceHashLength * passes ≠ size := by
      rw [hn]
      exact Nat.ne_of_lt (Nat.mul_lt_mul_of_pos_left hle pieceHashLength_pos)
    exact .succ (ih (Nat.le_of_succ_le hle)) hrun rfl

theorem loopBounded_iff {size : Nat} : LoopBounded size ↔ pieceHashLength ∣ size := by
  constructor
  · intro h
    obtain ⟨passes, hends⟩ := h.ends
    exact ⟨passes, head_position hends⟩
  · intro h
    obtain ⟨n, hn⟩ := h
    have hend : Iterates (· ≠ size) pieceStep 0 n size := by
      have := heads_up_to hn n (Nat.le_refl n)
      rwa [← hn] at this
    refine ⟨⟨n, hend⟩, fun passes iter hiter hrun => ?_⟩
    have hlt : passes < n := hend.lt_of_running (fun hne => hne rfl) hiter hrun
    rw [head_position hiter, hn, ← Nat.mul_succ]
    exact Nat.mul_le_mul_left _ hlt

/-- `pieces` returns, and never leaves the binary, exactly when the binary
consists of whole hashes. -/
theorem pieces_bounded_iff {metainfo : Metainfo} {piecesBytes : Bytes}
    (h : metainfo.piecesBytes = .ok piecesBytes) :
    ((∃ pieces, metainfo.pieces = .ok pieces) ∧ LoopBounded piecesBytes.length) ↔
      pieceHashLength ∣ piecesBytes.length := by
  rw [loopBounded_iff]
  constructor
  · intro hall
    exact hall.2
  · intro hdvd
    exact ⟨⟨_, (pieces_of_bytes h).1 hdvd⟩, hdvd⟩

theorem pieces_bounded_iff_twoPieces :
    ((∃ pieces, twoPieces.pieces = .ok pieces) ∧ LoopBounded 40) ↔ pieceHashLength ∣ 40 :=
  @pieces_bounded_iff twoPieces (List.replicate 40 0xFF) rfl

/-! ## From the file -/

/-- A torrent of one byte in one piece, with any bytes for its piece hashes. -/
def torrentWith (pieces : Bytes) : Metainfo where
  raw := .object [(ascii "announce", .string (ascii "a")),
    (ascii "info", .object [(ascii "length", .numberInteger 1),
      (ascii "piece length", .numberInteger 2), (ascii "pieces", denoteString pieces)])]
  announce := ascii "a"
  length := 1
  pieceLength := 2

def infoWith (pieces : Bytes) : List (Bytes × Value) :=
  [(ascii "length", .int 1), (ascii "piece length", .int 2), (ascii "pieces", .str pieces)]

def entriesWith (pieces : Bytes) : List (Bytes × Value) :=
  [(ascii "announce", .str (ascii "a")), (ascii "info", .dict (infoWith pieces))]

def torrentText (pieces : Bytes) : Bytes :=
  ascii "d8:announce1:a4:infod6:lengthi1e12:piece lengthi2e6:pieces" ++
    (print pieces.length ++ 58 :: pieces) ++ ascii "ee"

theorem stringText_print {b : Bytes} (h : InInt64 b.length) :
    StringText accepted (print b.length ++ 58 :: b) b :=
  ⟨print b.length, ⟨⟨print_numeral _, value_print _⟩, h⟩, rfl⟩

theorem derives_torrentText {pieces : Bytes} (h : InInt64 pieces.length) :
    Derives accepted (torrentText pieces) (.value (.dict (entriesWith pieces))) := by
  have hint : ∀ d : UInt8, Numeral [d] ∧ InInt64 (signedValue false [d]) →
      Derives accepted [105, d, 101] (.value (.int (signedValue false [d]))) := fun d h =>
    .int (w := [d]) ⟨⟨false, [d], h.1, rfl, rfl⟩, h.2⟩
  have hinner : ∀ k ∈ [ascii "length", ascii "piece length", ascii "pieces"], Utf8.Valid k := by
    decide
  have houter : ∀ k ∈ [ascii "announce", ascii "info"], Utf8.Valid k := by decide
  have hinfo : Derives accepted _ (.value (.dict (infoWith pieces))) :=
    .dict (.entry (stringText_print (by decide)) (hint 49 (by decide))
      (.entry (stringText_print (by decide)) (hint 50 (by decide))
      (.entry (stringText_print (by decide)) (.str (stringText_print h)) .noEntries)))
    ⟨trivial, hinner⟩
  have hall : Derives accepted _ (.value (.dict (entriesWith pieces))) :=
    .dict (.entry (stringText_print (by decide)) (.str (stringText_print (by decide)))
      (.entry (stringText_print (by decide)) hinfo .noEntries)) ⟨trivial, houter⟩
  have hfront : ascii "d8:announce1:a4:infod6:lengthi1e12:piece lengthi2e6:pieces" =
      100 :: (encodeString (ascii "announce") ++ (encodeString (ascii "a") ++
        (encodeString (ascii "info") ++ 100 :: (encodeString (ascii "length") ++ [105, 49, 101] ++
          (encodeString (ascii "piece length") ++ [105, 50, 101] ++
            encodeString (ascii "pieces")))))) := rfl
  have hend : ascii "ee" = [101, 101] := rfl
  simpa [torrentText, hfront, hend, encodeString, stringDelimiterSymbol] using hall

theorem decode_torrentText {pieces : Bytes} (h : InInt64 pieces.length) :
    decodeBencodedValue (torrentText pieces) =
      .value (⟨.dictionary, torrentText pieces⟩, (torrentWith pieces).raw) := by
  have := decode_complete (derives_torrentText h) []
  rw [List.append_nil] at this
  exact this

theorem fromFile_torrentText {pieces : Bytes} (h : InInt64 pieces.length) :
    fromFile (torrentText pieces) true = .value (torrentWith pieces) := by
  unfold fromFile metainfo
  rw [decode_torrentText h]
  rfl

theorem value_denote_dict {k : Bytes} {es : List (Bytes × Value)} {v : Value}
    (h : lookup k es = some v) (dflt : Json) :
    (denote (.dict es)).value k dflt = .ok (denote v) := by
  rw [denote, Json.value, lookup_ofList, denoteEntries_eq_map, lookup_map, h]
  rfl

theorem getBinary_denoteString (b : Bytes) :
    (denoteString b).getBinary = if Utf8.Valid b then .error (.typeError 302) else .ok b := by
  unfold denoteString
  split <;> rfl

/-- The bytes behind `pieces` in the file are the binary `pieces` iterates over,
unless they are UTF-8. -/
theorem piecesBytes_of_derives {w t P : Bytes} {es info : List (Bytes × Value)} {e : EncodedValue}
    {metainfo : Metainfo} (hw : Derives loose w (.value (.dict es)))
    (hinfo : lookup (ascii "info") es = some (.dict info))
    (hP : lookup (ascii "pieces") info = some (.str P))
    (hdec : decodeBencodedValue (w ++ t) = .value (e, metainfo.raw)) :
    metainfo.piecesBytes = if Utf8.Valid P then .error (.typeError 302) else .ok P := by
  have hraw : metainfo.raw = denote (.dict es) := congrArg Prod.snd (decode_of_derives hw hdec)
  rw [← getBinary_denoteString, Metainfo.piecesBytes, hraw, value_denote_dict hinfo]
  show ((denote (.dict info)).value (ascii "pieces") (.binary []) >>= fun v => v.getBinary) = _
  rw [value_denote_dict hP]
  rfl

/-- `pieces` returns the hashes in the file exactly when their bytes are not UTF-8. -/
theorem pieces_iff {w t P : Bytes} {es info : List (Bytes × Value)} {e : EncodedValue}
    {metainfo : Metainfo} {n : Nat} (hw : Derives loose w (.value (.dict es)))
    (hinfo : lookup (ascii "info") es = some (.dict info))
    (hP : lookup (ascii "pieces") info = some (.str P)) (hn : P.length = pieceHashLength * n)
    (hdec : decodeBencodedValue (w ++ t) = .value (e, metainfo.raw)) :
    (∃ pieces, metainfo.pieces = .ok pieces ∧ pieces.length = n ∧
      (∀ piece ∈ pieces, piece.length = pieceHashLength) ∧ pieces.flatten = P) ↔
    ¬ Utf8.Valid P := by
  have hbytes := piecesBytes_of_derives hw hinfo hP hdec
  by_cases hvalid : Utf8.Valid P
  · rw [if_pos hvalid] at hbytes
    have hthrows : metainfo.pieces = .error (.typeError 302) := by
      rw [pieces_eq, hbytes]
      rfl
    constructor
    · intro h
      obtain ⟨pieces, hok, _⟩ := h
      rw [hthrows] at hok
      cases hok
    · intro h
      exact absurd hvalid h
  · rw [if_neg hvalid] at hbytes
    obtain ⟨hlen, hall, hflat⟩ := chunk_exact pieceHashLength_pos hn
    constructor
    · intro _
      exact hvalid
    · intro _
      exact ⟨_, (pieces_of_bytes hbytes).1 ⟨n, hn⟩, hlen, hall, hflat⟩

theorem pieces_iff_onePiece :
    (∃ pieces, onePiece.pieces = .ok pieces ∧ pieces.length = 1 ∧
      (∀ piece ∈ pieces, piece.length = pieceHashLength) ∧
      pieces.flatten = List.replicate 20 0xFF) ↔
    ¬ Utf8.Valid (List.replicate 20 0xFF) := by
  have hfits : InInt64 (List.replicate 20 (0xFF : UInt8)).length := by decide
  refine pieces_iff (t := []) (e := ⟨.dictionary, torrentText (List.replicate 20 0xFF)⟩)
    ((derives_torrentText hfits).mono accepted_le_loose) rfl rfl rfl ?_
  rw [List.append_nil]
  exact decode_torrentText hfits

/-- A hash of twenty letters is a Json string. -/
theorem pieces_throws_on_text :
    ¬ ∀ (w P : Bytes) (es info : List (Bytes × Value)) (metainfo : Metainfo) (n : Nat),
      Derives loose w (.value (.dict es)) →
      lookup (ascii "info") es = some (.dict info) → lookup (ascii "pieces") info = some (.str P) →
      P.length = pieceHashLength * n → fromFile w true = .value metainfo →
      ∃ pieces, metainfo.pieces = .ok pieces ∧ pieces.length = n ∧
        (∀ piece ∈ pieces, piece.length = pieceHashLength) ∧ pieces.flatten = P := by
  intro h
  have hfits : InInt64 (ascii "aaaaaaaaaaaaaaaaaaaa").length := by decide
  obtain ⟨pieces, hok, _⟩ := h _ (ascii "aaaaaaaaaaaaaaaaaaaa") _ _ _ 1
    ((derives_torrentText hfits).mono accepted_le_loose) rfl rfl rfl (fromFile_torrentText hfits)
  have hthrows : (torrentWith (ascii "aaaaaaaaaaaaaaaaaaaa")).pieces = .error (.typeError 302) := by
    decide +kernel
  rw [hthrows] at hok
  cases hok

/-- Twenty-one bytes are one hash and a remainder, which no one looks for. -/
theorem pieces_leaves_binary :
    ¬ ∀ (torrentContent piecesBytes : Bytes) (metainfo : Metainfo),
      fromFile torrentContent true = .value metainfo → metainfo.piecesBytes = .ok piecesBytes →
      (∃ pieces, metainfo.pieces = .ok pieces) ∧ LoopBounded piecesBytes.length := by
  intro h
  have hfits : InInt64 (List.replicate 21 (0xFF : UInt8)).length := by decide
  obtain ⟨_, hbounded⟩ := h _ (List.replicate 21 0xFF) _ (fromFile_torrentText hfits)
    (by decide +kernel)
  exact absurd (loopBounded_iff.mp hbounded) (by decide)

end Bittorrent.Torrent

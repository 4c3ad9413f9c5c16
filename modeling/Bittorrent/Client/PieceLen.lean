import Bittorrent.Client.Piece

/-! The length of each piece. The last piece gets what is left over by the
others, also where nothing is left over and it should be as long as they are
(`pieceLen_partition_iff`). Both numbers come from the file as they are
(`pieceLen_defined_iff`). -/

namespace Bittorrent.Client

open Torrent

/-- On positive numbers nothing can go wrong. -/
theorem pieceLen_eq {metainfo : Metainfo} {pieces : List Bytes} (hp : metainfo.pieces = .ok pieces)
    (hl : 0 < metainfo.length) (hpl : 0 < metainfo.pieceLength) (hne : pieces ≠ []) (i : Nat) :
    pieceLen metainfo i = .ok (if i = pieces.length - 1 then metainfo.length % metainfo.pieceLength
      else metainfo.pieceLength) := by
  have hlast : sizeT ((pieces.length : Int) - 1) = pieces.length - 1 := by
    have := List.length_pos_iff.mpr hne
    rw [sizeT_of_nonneg (by omega)]
    omega
  have hrem : remainder metainfo.length metainfo.pieceLength =
      .ok (metainfo.length % metainfo.pieceLength) := by
    unfold remainder
    rw [if_neg (by omega), if_neg (by omega), Int.tmod_eq_emod_of_nonneg (Int.le_of_lt hl)]
  unfold pieceLen
  simp only [hp, hrem, bind, Except.bind, hlast]

/-- `m` pieces of one length and a last one. -/
theorem sum_pieces (m : Nat) (full last : Int) :
    ((List.range (m + 1)).map fun i => if i = m then last else full).sum = m * full + last := by
  have hfull : (List.range m).map (fun i => if i = m then last else full) =
      List.replicate m full := by
    refine List.eq_replicate_iff.mpr ⟨by simp, fun b hb => ?_⟩
    obtain ⟨i, hi, rfl⟩ := List.mem_map.mp hb
    exact if_neg (Nat.ne_of_lt (List.mem_range.mp hi))
  rw [List.range_succ, List.map_append, hfull, List.sum_append, List.sum_replicate_int]
  simp

/-- With as many pieces as it takes, the lengths of the pieces are positive, at
most the piece length and add up to the length of the file exactly when the
piece length does not divide it. -/
theorem pieceLen_partition_iff {metainfo : Metainfo} {pieces : List Bytes}
    (hp : metainfo.pieces = .ok pieces) (hl : 0 < metainfo.length)
    (hpl : 0 < metainfo.pieceLength)
    (hn : (pieces.length : Int) =
      (metainfo.length + metainfo.pieceLength - 1) / metainfo.pieceLength) :
    (∃ len : Nat → Int,
      (∀ i, i < pieces.length →
        pieceLen metainfo i = .ok (len i) ∧ 0 < len i ∧ len i ≤ metainfo.pieceLength) ∧
      ((List.range pieces.length).map len).sum = metainfo.length) ↔
    ¬ metainfo.pieceLength ∣ metainfo.length := by
  obtain ⟨m, hm⟩ : ∃ m, pieces.length = m + 1 := by
    refine Nat.exists_eq_succ_of_ne_zero fun h0 => ?_
    have : 1 ≤ (metainfo.length + metainfo.pieceLength - 1) / metainfo.pieceLength :=
      Int.le_ediv_of_mul_le hpl (by omega)
    omega
  have hne : pieces ≠ [] := List.ne_nil_of_length_eq_add_one hm
  have hlen : ∀ i, pieceLen metainfo i =
      .ok (if i = m then metainfo.length % metainfo.pieceLength else metainfo.pieceLength) := by
    intro i
    rw [pieceLen_eq hp hl hpl hne, hm]
    rfl
  have hmod := Int.emod_nonneg metainfo.length (Int.ne_of_gt hpl)
  have hlt := Int.emod_lt_of_pos metainfo.length hpl
  constructor
  · rintro ⟨len, hall, _⟩ hdvd
    obtain ⟨hlast, hpos, _⟩ := hall m (by omega)
    rw [hlen m, if_pos rfl, Int.emod_eq_zero_of_dvd hdvd] at hlast
    obtain hzero := Except.ok.inj hlast
    omega
  · intro hdvd
    have hrest : 0 < metainfo.length % metainfo.pieceLength :=
      lt_of_le_of_ne hmod fun h => hdvd (Int.dvd_of_emod_eq_zero h.symm)
    refine ⟨fun i => if i = m then metainfo.length % metainfo.pieceLength else metainfo.pieceLength,
      fun i _ => ⟨hlen i, ?_, ?_⟩, ?_⟩
    · dsimp only
      split <;> omega
    · dsimp only
      split <;> omega
    · -- the pieces before the last are as many as fit
      have hquot : (m : Int) = metainfo.length / metainfo.pieceLength := by
        have hsplit := Int.mul_ediv_add_emod metainfo.length metainfo.pieceLength
        have hup : metainfo.length + metainfo.pieceLength - 1 =
            (metainfo.length % metainfo.pieceLength - 1) +
              metainfo.pieceLength * (metainfo.length / metainfo.pieceLength + 1) := by
          rw [Int.mul_add, Int.mul_one]
          omega
        rw [hup, Int.add_mul_ediv_left _ _ (Int.ne_of_gt hpl),
          Int.ediv_eq_zero_of_lt (by omega) (by omega)] at hn
        omega
      rw [hm, sum_pieces, hquot, Int.mul_comm]
      exact Int.mul_ediv_add_emod _ _

theorem pieceLen_partition_iff_onePiece :
    (∃ len : Nat → Int,
      (∀ i, i < 1 → pieceLen onePiece i = .ok (len i) ∧ 0 < len i ∧ len i ≤ 2) ∧
      ((List.range 1).map len).sum = 1) ↔ ¬ (2 : Int) ∣ 1 :=
  @pieceLen_partition_iff onePiece [List.replicate 20 0xFF] rfl (by decide) (by decide) (by decide)

/-- The second piece of a torrent of two bytes in pieces of one byte is empty. -/
theorem pieceLen_drops_last :
    ¬ ∀ (torrentContent : Bytes) (metainfo : Metainfo) (pieces : List Bytes),
      fromFile torrentContent true = .value metainfo → metainfo.pieces = .ok pieces →
      0 < metainfo.length → 0 < metainfo.pieceLength →
      (pieces.length : Int) =
        (metainfo.length + metainfo.pieceLength - 1) / metainfo.pieceLength →
      ∃ len : Nat → Int,
        (∀ i, i < pieces.length →
          pieceLen metainfo i = .ok (len i) ∧ 0 < len i ∧ len i ≤ metainfo.pieceLength) ∧
        ((List.range pieces.length).map len).sum = metainfo.length := by
  intro hall
  obtain ⟨len, hlen, _⟩ := hall _ twoPieces _ fromFile_twoPieces rfl (by decide) (by decide)
    (by decide)
  obtain ⟨hlast, hpos, _⟩ := hlen 1 (by decide)
  have hzero : pieceLen twoPieces 1 = .ok 0 := by decide +kernel
  rw [Except.ok.inj (hlast.symm.trans hzero)] at hpos
  cases hpos

/-! ## Any two numbers -/

theorem remainder_eq_ok {a b r : Int} :
    remainder a b = .ok r ↔ b ≠ 0 ∧ ¬ (a = -2 ^ 63 ∧ b = -1) ∧ a.tmod b = r := by
  unfold remainder
  split
  · next hb => simp [hb]
  · next hb =>
    split
    · next hover => simp [hover]
    · next hover =>
      rw [Except.ok.injEq]
      exact ⟨fun h => ⟨hb, hover, h⟩, fun h => h.2.2⟩

/-- A remainder takes the sign of the dividend. -/
theorem tmod_nonneg_iff {a b : Int} : 0 ≤ a.tmod b ↔ 0 ≤ a ∨ b ∣ a := by
  constructor
  · intro h
    by_cases ha : 0 ≤ a
    · exact Or.inl ha
    · have hneg : 0 ≤ (-a).tmod b := Int.tmod_nonneg b (by omega)
      rw [Int.neg_tmod] at hneg
      exact Or.inr (Int.dvd_of_tmod_eq_zero (by omega))
  · intro h
    rcases h with ha | hdvd
    · exact Int.tmod_nonneg b ha
    · rw [Int.tmod_eq_zero_of_dvd hdvd]

theorem pieceLen_eq_ok {metainfo : Metainfo} {pieces : List Bytes}
    (hp : metainfo.pieces = .ok pieces) {i : Nat} {len : Int} :
    pieceLen metainfo i = .ok len ↔ ∃ last, remainder metainfo.length metainfo.pieceLength = .ok last ∧
      (if i = sizeT (pieces.length - 1) then last else metainfo.pieceLength) = len := by
  unfold pieceLen
  simp only [hp, bind, Except.bind]
  cases remainder metainfo.length metainfo.pieceLength with
  | ok last => simp
  | error e => simp

/-- For every torrent the computation is defined and stays between zero and the
piece length exactly when the hashes can be read, the piece length is positive
and, for the last piece, the length has no negative remainder. -/
theorem pieceLen_defined_iff (metainfo : Metainfo) (i : Nat) :
    (∃ len, pieceLen metainfo i = .ok len ∧ 0 ≤ len ∧ len ≤ metainfo.pieceLength) ↔
      ∃ pieces, metainfo.pieces = .ok pieces ∧ 0 < metainfo.pieceLength ∧
        (i = sizeT (pieces.length - 1) →
          0 ≤ metainfo.length ∨ metainfo.pieceLength ∣ metainfo.length) := by
  constructor
  · intro h
    obtain ⟨len, hok, hnonneg, hle⟩ := h
    obtain ⟨pieces, hp, _⟩ := except_bind_eq_ok.mp hok
    obtain ⟨last, hrem, hlen⟩ := (pieceLen_eq_ok hp).mp hok
    obtain ⟨hne, _, hlast⟩ := remainder_eq_ok.mp hrem
    refine ⟨pieces, hp, by omega, fun hi => ?_⟩
    rw [if_pos hi] at hlen
    rw [← tmod_nonneg_iff, hlast, hlen]
    exact hnonneg
  · intro h
    obtain ⟨pieces, hp, hpos, hlast⟩ := h
    have hrem := remainder_eq_ok.mpr
      ⟨Int.ne_of_gt hpos, by omega, show metainfo.length.tmod metainfo.pieceLength = _ from rfl⟩
    refine ⟨_, (pieceLen_eq_ok hp).mpr ⟨_, hrem, rfl⟩, ?_⟩
    split
    · next hi =>
      exact ⟨tmod_nonneg_iff.mpr (hlast hi), Int.le_of_lt (Int.tmod_lt_of_pos _ hpos)⟩
    · exact ⟨Int.le_of_lt hpos, Int.le_refl _⟩

/-- A torrent of one piece, of length zero. -/
def noPieceLength : Metainfo where
  raw := .object [(ascii "announce", .string (ascii "a")),
    (ascii "info", .object [(ascii "length", .numberInteger 1),
      (ascii "piece length", .numberInteger 0),
      (ascii "pieces", .binary (List.replicate 20 0xFF))])]
  announce := ascii "a"
  length := 1
  pieceLength := 0

def noPieceLengthText : Bytes :=
  ascii "d8:announce1:a4:infod6:lengthi1e12:piece lengthi0e6:pieces20:" ++ List.replicate 20 0xFF ++
    ascii "ee"

theorem fromFile_noPieceLength : fromFile noPieceLengthText true = .value noPieceLength := by
  have h : Bencode.decodeBencodedValue noPieceLengthText =
    .value (⟨.dictionary, noPieceLengthText⟩, noPieceLength.raw) := rfl
  unfold fromFile metainfo
  rw [h]
  rfl

theorem pieceLen_divides_by_zero :
    ¬ ∀ (torrentContent : Bytes) (metainfo : Metainfo) (pieces : List Bytes) (i : Nat),
      fromFile torrentContent true = .value metainfo → metainfo.pieces = .ok pieces →
      i < pieces.length →
      ∃ len, pieceLen metainfo i = .ok len ∧ 0 ≤ len ∧ len ≤ metainfo.pieceLength := by
  intro h
  obtain ⟨len, hlen, _⟩ := h _ noPieceLength _ 0 fromFile_noPieceLength rfl (by decide)
  have hzero : pieceLen noPieceLength 0 = .error (.undefined "division by zero") := by
    decide +kernel
  cases hlen.symm.trans hzero

end Bittorrent.Client

import Bittorrent.Lib.Chunks
import Bittorrent.Misc.ParseIpPort
import Bittorrent.Pieces

/-! The peers in a tracker's response, six bytes each: an address and a port.
The texts made of them are read back by `parse_ip_port`, and to the same bytes
(`decodePeers_round_trip`). -/

namespace Bittorrent.Client

open Lib Lib.Chunks Lib.Decimal Misc

def peersChunkSizeBytes : Nat := 6

theorem peersChunkSizeBytes_pos : 0 < peersChunkSizeBytes := Nat.zero_lt_succ 5

/-- `bytes` is a span of one entry. -/
def decodeIpPortBinary (bytes : Bytes) : Bytes :=
  let byte (i : Nat) : Nat := (bytes.getD i 0).toNat
  let ip := print (byte 0) ++ 46 :: (print (byte 1) ++ 46 :: (print (byte 2) ++ 46 :: print (byte 3)))
  let port := byte 4 <<< 8 ||| byte 5
  ip ++ 58 :: print port

def decodePeers (peers : Bytes) : Except Exception (List Bytes) :=
  if peers.length % peersChunkSizeBytes ≠ 0 then
    .error (.runtimeError (s!"Bad response from server. \"peers\" field must be derisible by " ++
      s!"{peersChunkSizeBytes}. Got length: {peers.length}"))
  else .ok ((chunk peersChunkSizeBytes peers).map decodeIpPortBinary)

/-! ## Reading the texts -/

/-- The numbers between the dots. -/
def addressNumbers (ip : Bytes) : List Nat := (ip.splitOn 46).map value

/-- An address and a port as six bytes. -/
def encodeIpPort (ipPort : Bytes × Bytes) : Bytes :=
  (addressNumbers ipPort.1).map UInt8.ofNat ++
    [UInt8.ofNat (value ipPort.2 / 256), UInt8.ofNat (value ipPort.2 % 256)]

/-- What a parsed pair is to look like. -/
structure IpPort (ipPort : Bytes × Bytes) : Prop where
  parts : (addressNumbers ipPort.1).length = 4
  bytes : ∀ n ∈ addressNumbers ipPort.1, n < 256
  port : value ipPort.2 ≤ 65535

theorem exists_of_length_six {c : Bytes} (h : c.length = peersChunkSizeBytes) :
    ∃ b₀ b₁ b₂ b₃ b₄ b₅, c = [b₀, b₁, b₂, b₃, b₄, b₅] := by
  rcases c with _ | ⟨b₀, _ | ⟨b₁, _ | ⟨b₂, _ | ⟨b₃, _ | ⟨b₄, _ | ⟨b₅, _ | ⟨_, _⟩⟩⟩⟩⟩⟩⟩
  all_goals first | exact ⟨_, _, _, _, _, _, rfl⟩ | cases h

theorem addressNumbers_print (a b c d : Nat) :
    addressNumbers (print a ++ 46 :: print b ++ 46 :: print c ++ 46 :: print d) = [a, b, c, d] := by
  have hdots : print a ++ 46 :: print b ++ 46 :: print c ++ 46 :: print d =
      [46].intercalate [print a, print b, print c, print d] := by
    simp [List.intercalate]
  have hnone : ∀ l ∈ [print a, print b, print c, print d], (46 : UInt8) ∉ l := by
    intro l hl hmem
    have hdigit : ∀ n, (46 : UInt8) ∉ print n := by
      intro n h
      exact absurd ((print_numeral n).2 46 h) (by decide)
    simp only [List.mem_cons, List.not_mem_nil, or_false] at hl
    rcases hl with rfl | rfl | rfl | rfl <;> exact hdigit _ hmem
  rw [addressNumbers, hdots, List.splitOn_intercalate 46 hnone (List.cons_ne_nil _ _)]
  simp only [List.map_cons, List.map_nil, value_print]

/-- The port of an entry, most significant byte first. -/
theorem shiftLeft_or_byte (e f : UInt8) :
    e.toNat <<< 8 ||| f.toNat = e.toNat * 256 + f.toNat := by
  rw [← Nat.shiftLeft_add_eq_or_of_lt (show f.toNat < 2 ^ 8 from f.toNat_lt), Nat.shiftLeft_eq]

theorem decodeIpPortBinary_eq (b₀ b₁ b₂ b₃ b₄ b₅ : UInt8) :
    decodeIpPortBinary [b₀, b₁, b₂, b₃, b₄, b₅] =
      print b₀.toNat ++ 46 :: (print b₁.toNat ++ 46 :: (print b₂.toNat ++ 46 ::
        (print b₃.toNat ++ 58 :: print (b₄.toNat * 256 + b₅.toNat)))) := by
  simp [decodeIpPortBinary, shiftLeft_or_byte]

theorem print_byte (b : UInt8) : Numeral (print b.toNat) ∧ (print b.toNat).length ≤ 3 :=
  ⟨print_numeral _, print_length_le (by decide) (Nat.lt_trans b.toNat_lt (by decide))⟩

theorem print_port {n : Nat} (h : n < 65536) : Numeral (print n) ∧ (print n).length ≤ 5 :=
  ⟨print_numeral _, print_length_le (by decide) (Nat.lt_trans h (by decide))⟩

/-- One entry is parsed, and to the bytes it was made of. -/
theorem parseIpPort_decodeIpPortBinary {c : Bytes} (h : c.length = peersChunkSizeBytes) :
    ∃ ipPort, parseIpPort (decodeIpPortBinary c) = .ok ipPort ∧ IpPort ipPort ∧
      encodeIpPort ipPort = c := by
  obtain ⟨b₀, b₁, b₂, b₃, b₄, b₅, rfl⟩ := exists_of_length_six h
  have := b₄.toNat_lt
  have := b₅.toNat_lt
  have hlt : b₄.toNat * 256 + b₅.toNat < 65536 := by omega
  refine ⟨_, (congrArg parseIpPort (decodeIpPortBinary_eq b₀ b₁ b₂ b₃ b₄ b₅)).trans
    (parseIpPort_numerals (print_byte b₀) (print_byte b₁) (print_byte b₂) (print_byte b₃)
      (print_port hlt)), ⟨?_, ?_, ?_⟩, ?_⟩
  · rw [addressNumbers_print]
    rfl
  · intro n hn
    simp only [addressNumbers_print, List.mem_cons, List.not_mem_nil, or_false] at hn
    rcases hn with rfl | rfl | rfl | rfl <;> exact UInt8.toNat_lt _
  · rw [value_print]
    omega
  · have hhigh : (b₄.toNat * 256 + b₅.toNat) / 256 = b₄.toNat := by omega
    have hlow : (b₄.toNat * 256 + b₅.toNat) % 256 = b₅.toNat := by omega
    simp only [encodeIpPort, addressNumbers_print, value_print, hhigh, hlow, List.map_cons,
      List.map_nil, UInt8.ofNat_toNat, List.cons_append, List.nil_append]

/-! ## The whole field -/

theorem decodePeers_ok {peers : Bytes} (h : peersChunkSizeBytes ∣ peers.length) :
    decodePeers peers = .ok ((chunk peersChunkSizeBytes peers).map decodeIpPortBinary) :=
  if_neg fun hne => hne (Nat.mod_eq_zero_of_dvd h)

theorem mapM_parseIpPort {cs : List Bytes} (h : ∀ c ∈ cs, c.length = peersChunkSizeBytes) :
    ∃ pairs, (cs.map decodeIpPortBinary).mapM parseIpPort = .ok pairs ∧
      (∀ ipPort ∈ pairs, IpPort ipPort) ∧ pairs.flatMap encodeIpPort = cs.flatten := by
  induction cs with
  | nil => exact ⟨[], rfl, by simp, rfl⟩
  | cons c cs ih =>
    obtain ⟨pairs, hpairs, hall, hflat⟩ := ih fun d hd => h d (List.mem_cons_of_mem _ hd)
    obtain ⟨ipPort, hparse, hip, hencode⟩ := parseIpPort_decodeIpPortBinary (h c (by simp))
    refine ⟨ipPort :: pairs, ?_, ?_, ?_⟩
    · rw [List.map_cons, List.mapM_cons, hparse, hpairs]
      rfl
    · intro p hp
      rcases List.mem_cons.mp hp with rfl | hp
      · exact hip
      · exact hall p hp
    · rw [List.flatMap_cons, List.flatten_cons, hencode, hflat]

/-- Every binary of whole entries becomes as many texts, all of which are parsed
to the bytes they were made of; any other binary is refused. -/
theorem decodePeers_round_trip (P : Bytes) :
    (peersChunkSizeBytes ∣ P.length → ∃ peers pairs, decodePeers P = .ok peers ∧
      peers.length = P.length / peersChunkSizeBytes ∧ peers.mapM parseIpPort = .ok pairs ∧
      (∀ ipPort ∈ pairs, IpPort ipPort) ∧ pairs.flatMap encodeIpPort = P) ∧
    (¬ peersChunkSizeBytes ∣ P.length → ∃ what, decodePeers P = .error (.runtimeError what)) := by
  constructor
  · intro hdvd
    obtain ⟨n, hn⟩ := hdvd
    obtain ⟨hlen, hall, hflat⟩ := chunk_exact peersChunkSizeBytes_pos hn
    obtain ⟨pairs, hpairs, hips, hencode⟩ := mapM_parseIpPort hall
    refine ⟨_, pairs, decodePeers_ok ⟨n, hn⟩, ?_, hpairs, hips, hencode.trans hflat⟩
    rw [List.length_map, hlen, hn, Nat.mul_div_cancel_left _ peersChunkSizeBytes_pos]
  · intro hdvd
    exact ⟨_, if_pos fun h => hdvd (Nat.dvd_of_mod_eq_zero h)⟩

end Bittorrent.Client

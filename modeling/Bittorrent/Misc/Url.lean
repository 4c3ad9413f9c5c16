import Mathlib.Data.List.TakeWhile
import Bittorrent.Misc.Sha1

/-! Building a URL with libcurl. The library is a parameter; its strings end at
their first zero byte, also where the program hands over a string that has its
length elsewhere. -/

namespace Bittorrent.Misc

inductive UrlPart where
  | url
  | query

def UrlPart.name : UrlPart → String
  | url => "CURLUPART_URL"
  | query => "CURLUPART_QUERY"

structure UrlFlags where
  appendQuery : Bool := false
  urlEncode : Bool := false
  noDefaultPort : Bool := false

/-- `curl_url`, `curl_url_set` and `curl_url_get`, with the name of the code of a failure. -/
structure UrlApi (Handle : Type) where
  new : Handle
  set : Handle → UrlPart → Bytes → UrlFlags → Except String Handle
  get : Handle → UrlPart → UrlFlags → Except String Bytes

/-- What a reader of a NUL-terminated string sees of the bytes at a pointer. -/
def cString (s : Bytes) : Bytes := s.takeWhile (· ≠ 0)

namespace Url

variable {Handle : Type} (api : UrlApi Handle)

def set (url : Handle) (what : UrlPart) (part : Bytes) (flags : UrlFlags) :
    Except Exception Handle :=
  match api.set url what (cString part) flags with
  | .ok url => .ok url
  | .error code => .error (.invalidArgument (s!"Can not set URL part {what.name} with provided " ++
      s!"argument {toText part}. Error code: {code}"))

def get (url : Handle) (what : UrlPart) (flags : UrlFlags) : Except Exception Bytes :=
  match api.get url what flags with
  | .ok part => .ok part
  | .error code => .error (.invalidArgument
      s!"Can not get URL part {what.name}. Error code: {code}")

def base (url : Handle) (base : Bytes) : Except Exception Handle := set api url .url base {}

/-- `param` as it is formatted. -/
def query (url : Handle) (name param : Bytes) : Except Exception Handle :=
  set api url .query (name ++ 61 :: param) { appendQuery := true }

/-- `query` for a vector of bytes. The formatted string goes on as a pointer. -/
def queryBytes (url : Handle) (name param : Bytes) : Except Exception Handle :=
  set api url .query (cString (name ++ 61 :: param)) { appendQuery := true, urlEncode := true }

def toString (url : Handle) : Except Exception Bytes := get api url .url { noDefaultPort := true }

theorem set_eq_ok {url url' : Handle} {what : UrlPart} {part : Bytes} {flags : UrlFlags} :
    set api url what part flags = .ok url' ↔ api.set url what (cString part) flags = .ok url' := by
  unfold set
  cases api.set url what (cString part) flags <;> simp

end Url

/-! ## Zero bytes -/

theorem ne_of_not_mem {s : Bytes} {c : UInt8} (h : c ∉ s) : ∀ b ∈ s, decide (b ≠ c) = true :=
  fun _ hb => decide_eq_true fun hc => h (hc ▸ hb)

theorem cString_eq_self_iff {s : Bytes} : cString s = s ↔ 0 ∉ s := by
  rw [cString, List.takeWhile_eq_self_iff]
  constructor
  · intro h hmem
    simpa using h 0 hmem
  · exact ne_of_not_mem

theorem cString_append {s t : Bytes} (h : 0 ∉ s) : cString (s ++ t) = s ++ cString t :=
  List.takeWhile_append_of_pos (ne_of_not_mem h)

theorem cString_cString (s : Bytes) : cString (cString s) = cString s :=
  cString_eq_self_iff.mpr fun h => by simpa using List.mem_takeWhile_imp h

/-! ## Queries -/

/-- The bytes that are never encoded. -/
def unreserved (b : UInt8) : Bool :=
  (48 ≤ b && b ≤ 57) || (65 ≤ b && b ≤ 90) || (97 ≤ b && b ≤ 122) || b = 45 || b = 46 || b = 95 ||
    b = 126

/-- Appending a parameter with its encoding puts it behind an ampersand, or
first in an empty query; the first equals sign stays, and so does a name that
has nothing to encode. -/
structure UrlApi.AppendsEncoded {Handle : Type} (api : UrlApi Handle) (query : Handle → Bytes)
    (encode : Bytes → Bytes) : Prop where
  set : ∀ url name value url', name.all unreserved = true →
    api.set url .query (name ++ 61 :: value) { appendQuery := true, urlEncode := true } = .ok url' →
    ∃ front, query url' = front ++ (name ++ 61 :: encode value) ∧
      (front = [] ∨ front.getLast? = some 38)
  encode : ∀ value, 38 ∉ encode value

/-- The parameter behind the last ampersand of a query. -/
def lastParameter (query : Bytes) : Bytes := (query.reverse.takeWhile (· ≠ 38)).reverse

theorem lastParameter_append {front param : Bytes} (hfront : front = [] ∨ front.getLast? = some 38)
    (hparam : 38 ∉ param) : lastParameter (front ++ param) = param := by
  have hreverse : 38 ∉ param.reverse := mt List.mem_reverse.mp hparam
  rw [lastParameter, List.reverse_append, List.takeWhile_append_of_pos (ne_of_not_mem hreverse)]
  rcases hfront with rfl | hlast
  · simp
  · obtain ⟨rest, rfl⟩ := List.getLast?_eq_some_iff.mp hlast
    simp

theorem not_mem_of_unreserved {name : Bytes} (h : name.all unreserved = true) {b : UInt8}
    (hb : unreserved b = false) : b ∉ name := by
  intro hmem
  rw [List.all_eq_true.mp h b hmem] at hb
  cases hb

/-- A byte that a name cannot have is in a parameter only as part of the value. -/
theorem not_mem_parameter {name value : Bytes} (h : name.all unreserved = true) {b : UInt8}
    (hb : unreserved b = false ∧ b ≠ 61) (hvalue : b ∉ value) : b ∉ name ++ 61 :: value := by
  rw [List.mem_append, List.mem_cons]
  exact not_or.mpr ⟨not_mem_of_unreserved h hb.1, not_or.mpr ⟨hb.2, hvalue⟩⟩

/-- The value arrives encoded, up to its first zero byte. -/
theorem queryBytes_lastParameter {Handle : Type} {api : UrlApi Handle} {query : Handle → Bytes}
    {encode : Bytes → Bytes} (h : api.AppendsEncoded query encode) {url url' : Handle}
    {name param : Bytes} (hname : name.all unreserved = true)
    (hset : Url.queryBytes api url name param = .ok url') :
    lastParameter (query url') = name ++ 61 :: encode (cString param) := by
  have hzero : 0 ∉ name ++ [61] := not_mem_parameter hname (by decide) List.not_mem_nil
  have hcut : cString (name ++ 61 :: param) = name ++ 61 :: cString param := by
    have := cString_append (t := param) hzero
    rwa [List.append_assoc, List.append_assoc] at this
  rw [Url.queryBytes, Url.set_eq_ok, cString_cString, hcut] at hset
  obtain ⟨front, hq, hfront⟩ := h.set _ _ _ _ hname hset
  have hamp : 38 ∉ name ++ 61 :: encode (cString param) :=
    not_mem_parameter hname (by decide) (h.encode _)
  rw [hq, lastParameter_append hfront hamp]

/-! ## Percent encoding -/

/-- A byte in a query: as it is, as a plus sign for a space, or as two digits. -/
def percentEncodeByte (b : UInt8) : Bytes :=
  if unreserved b then [b] else if b = 32 then [43] else 37 :: hexByte b

def percentEncode (s : Bytes) : Bytes := s.flatMap percentEncodeByte

def percentDecode : Bytes → Bytes
  | 37 :: hi :: lo :: rest =>
    match hexVal hi, hexVal lo with
    | some h, some l => UInt8.ofNat (h * 16 + l) :: percentDecode rest
    | _, _ => 37 :: percentDecode (hi :: lo :: rest)
  | 43 :: rest => 32 :: percentDecode rest
  | b :: rest => b :: percentDecode rest
  | [] => []

theorem percentDecode_cons {b : UInt8} (h : b ≠ 37) (h' : b ≠ 43) (rest : Bytes) :
    percentDecode (b :: rest) = b :: percentDecode rest := by
  rw [percentDecode]
  · exact fun _ _ _ he => absurd he h
  · exact h'

theorem hexVal_hexDigit {n : Nat} (h : n < 16) : hexVal (hexDigit n) = some n := by
  have hall : ∀ n : Fin 16, hexVal (hexDigit n) = some n.val := by decide +kernel
  exact hall ⟨n, h⟩

theorem percentDecode_hexByte (b : UInt8) (rest : Bytes) :
    percentDecode (37 :: hexByte b ++ rest) = b :: percentDecode rest := by
  have hb := b.toNat_lt
  have hhi : hexVal (hexDigit (b.toNat / 16)) = some (b.toNat / 16) := hexVal_hexDigit (by omega)
  have hlo : hexVal (hexDigit (b.toNat % 16)) = some (b.toNat % 16) := hexVal_hexDigit (by omega)
  have hbyte : b.toNat / 16 * 16 + b.toNat % 16 = b.toNat := by omega
  show percentDecode (37 :: hexDigit (b.toNat / 16) :: hexDigit (b.toNat % 16) :: rest) = _
  rw [percentDecode, hhi, hlo]
  show UInt8.ofNat (b.toNat / 16 * 16 + b.toNat % 16) :: percentDecode rest = _
  rw [hbyte, UInt8.ofNat_toNat]

theorem percentDecode_encodeByte (b : UInt8) (rest : Bytes) :
    percentDecode (percentEncodeByte b ++ rest) = b :: percentDecode rest := by
  unfold percentEncodeByte
  split
  · next hkept =>
    have hne : ∀ c : UInt8, unreserved c = false → b ≠ c := by
      rintro c hc rfl
      rw [hkept] at hc
      cases hc
    exact percentDecode_cons (hne 37 (by decide)) (hne 43 (by decide)) rest
  · split
    · next hspace =>
      rw [hspace]
      rfl
    · exact percentDecode_hexByte b rest

theorem percentDecode_encode (s : Bytes) : percentDecode (percentEncode s) = s := by
  induction s with
  | nil => rfl
  | cons b s ih =>
    have hcons : percentEncode (b :: s) = percentEncodeByte b ++ percentEncode s := rfl
    rw [hcons, percentDecode_encodeByte, ih]

/-- No ampersand is left. -/
theorem percentEncode_plain (s : Bytes) : 38 ∉ percentEncode s := by
  have hall : ∀ n : Fin 256, (38 : UInt8) ∉ percentEncodeByte (UInt8.ofNat n) := by decide +kernel
  intro h
  obtain ⟨b, _, hb⟩ := List.mem_flatMap.mp h
  have := hall ⟨b.toNat, b.toNat_lt⟩
  rw [UInt8.ofNat_toNat] at this
  exact this hb

/-- A URL as the text in front of its query, and the query. -/
def textUrl : UrlApi (Bytes × Bytes) where
  new := ([], [])
  set url what part flags :=
    match what with
    | .url => .ok (part.takeWhile (· ≠ 63), (part.dropWhile (· ≠ 63)).drop 1)
    | .query =>
      if flags.appendQuery then
        let encoded := if flags.urlEncode then
          percentEncode (part.takeWhile (· ≠ 61)) ++
            61 :: percentEncode ((part.dropWhile (· ≠ 61)).drop 1) else part
        let separator := if url.2 = [] ∨ url.2.getLast? = some 38 then [] else [38]
        .ok (url.1, url.2 ++ separator ++ encoded)
      else .ok (url.1, part)
  get url what _ :=
    match what with
    | .url => .ok (url.1 ++ 63 :: url.2)
    | .query => .ok url.2

theorem percentEncode_unreserved {name : Bytes} (h : name.all unreserved = true) :
    percentEncode name = name := by
  induction name with
  | nil => rfl
  | cons b name ih =>
    obtain ⟨hb, hname⟩ := Bool.and_eq_true_iff.mp h
    have hcons : percentEncode (b :: name) = percentEncodeByte b ++ percentEncode name := rfl
    rw [hcons, ih hname, percentEncodeByte, if_pos hb]
    rfl

theorem textUrl_appendsEncoded : textUrl.AppendsEncoded Prod.snd percentEncode where
  set := by
    intro url name value url' hname hset
    have heq := ne_of_not_mem (not_mem_of_unreserved hname (by decide : unreserved 61 = false))
    have htake : (name ++ 61 :: value).takeWhile (· ≠ 61) = name := by
      rw [List.takeWhile_append_of_pos heq]
      simp
    have hdrop : (name ++ 61 :: value).dropWhile (· ≠ 61) = 61 :: value := by
      rw [List.dropWhile_append_of_pos heq]
      simp
    simp only [textUrl, if_true, htake, hdrop, List.drop_succ_cons, List.drop_zero,
      percentEncode_unreserved hname, Except.ok.injEq] at hset
    subst hset
    refine ⟨_, rfl, ?_⟩
    split
    · next hend =>
      rw [List.append_nil]
      exact hend
    · exact Or.inr (by simp)
  encode := percentEncode_plain

end Bittorrent.Misc

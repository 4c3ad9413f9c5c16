import Bittorrent.Basic
import Bittorrent.Lib.Sha1

/-! The block function of the program's SHA-1. Its 80 lines pass the same five
variables round in changing places and keep the last 16 words of the schedule
only, each in the place of the one that is 16 older. -/

namespace Bittorrent.Misc

open Lib

abbrev Block := Vector UInt32 16

def rol (value : UInt32) (bits : Nat) : UInt32 :=
  value <<< UInt32.ofNat bits ||| value >>> UInt32.ofNat (32 - bits)

/-- `i & 15` as an index. -/
def low4 (i : Nat) : Fin 16 := ⟨i &&& 15, Nat.lt_succ_of_le Nat.and_le_right⟩

def blk (block : Block) (i : Fin 16) : UInt32 :=
  rol (block[low4 (i.val + 13)] ^^^ block[low4 (i.val + 8)] ^^^ block[low4 (i.val + 2)] ^^^ block[i]) 1

/-- The variables of `transform`, by name. -/
inductive Var where
  | a
  | b
  | c
  | d
  | e
  deriving DecidableEq

structure Working where
  block : Block
  vars : Sha1.Words

def Working.get (s : Working) : Var → UInt32
  | .a => s.vars.h0
  | .b => s.vars.h1
  | .c => s.vars.h2
  | .d => s.vars.h3
  | .e => s.vars.h4

def Working.set (s : Working) (var : Var) (value : UInt32) : Working :=
  { s with vars := match var with
    | .a => { s.vars with h0 := value }
    | .b => { s.vars with h1 := value }
    | .c => { s.vars with h2 := value }
    | .d => { s.vars with h3 := value }
    | .e => { s.vars with h4 := value } }

@[simp] theorem Working.get_set_self (s : Working) (var : Var) (value : UInt32) :
    (s.set var value).get var = value := by cases var <;> rfl

theorem Working.get_set_ne (s : Working) {var other : Var} (h : other ≠ var) (value : UInt32) :
    (s.set var value).get other = s.get other := by
  cases var <;> cases other <;> first | rfl | exact absurd rfl h

/-- What the five operations share: `z += f(w, x, y) + block[i] + k + rol(v, 5)`
and `w = rol(w, 30)`. -/
def mix (f : UInt32 → UInt32 → UInt32 → UInt32) (k : UInt32) (v w x y z : Var) (i : Fin 16)
    (s : Working) : Working :=
  let s := s.set z (s.get z + (f (s.get w) (s.get x) (s.get y) + s.block[i] + k + rol (s.get v) 5))
  s.set w (rol (s.get w) 30)

/-- `block[i] = blk(block, i)` -/
def refresh (i : Fin 16) (s : Working) : Working := { s with block := s.block.set i (blk s.block i) }

def R0 (v w x y z : Var) (i : Fin 16) (s : Working) : Working :=
  mix (fun w x y => (w &&& (x ^^^ y)) ^^^ y) 0x5a827999 v w x y z i s

def R1 (v w x y z : Var) (i : Fin 16) (s : Working) : Working :=
  mix (fun w x y => (w &&& (x ^^^ y)) ^^^ y) 0x5a827999 v w x y z i (refresh i s)

def R2 (v w x y z : Var) (i : Fin 16) (s : Working) : Working :=
  mix (fun w x y => w ^^^ x ^^^ y) 0x6ed9eba1 v w x y z i (refresh i s)

def R3 (v w x y z : Var) (i : Fin 16) (s : Working) : Working :=
  mix (fun w x y => ((w ||| x) &&& y) ||| (w &&& x)) 0x8f1bbcdc v w x y z i (refresh i s)

def R4 (v w x y z : Var) (i : Fin 16) (s : Working) : Working :=
  mix (fun w x y => w ^^^ x ^^^ y) 0xca62c1d6 v w x y z i (refresh i s)

open Var in
/-- 4 rounds of 20 operations each, unrolled. -/
def lines : List (Working → Working) := [
  R0 a b c d e 0, R0 e a b c d 1, R0 d e a b c 2, R0 c d e a b 3, R0 b c d e a 4,
  R0 a b c d e 5, R0 e a b c d 6, R0 d e a b c 7, R0 c d e a b 8, R0 b c d e a 9,
  R0 a b c d e 10, R0 e a b c d 11, R0 d e a b c 12, R0 c d e a b 13, R0 b c d e a 14,
  R0 a b c d e 15, R1 e a b c d 0, R1 d e a b c 1, R1 c d e a b 2, R1 b c d e a 3,
  R2 a b c d e 4, R2 e a b c d 5, R2 d e a b c 6, R2 c d e a b 7, R2 b c d e a 8,
  R2 a b c d e 9, R2 e a b c d 10, R2 d e a b c 11, R2 c d e a b 12, R2 b c d e a 13,
  R2 a b c d e 14, R2 e a b c d 15, R2 d e a b c 0, R2 c d e a b 1, R2 b c d e a 2,
  R2 a b c d e 3, R2 e a b c d 4, R2 d e a b c 5, R2 c d e a b 6, R2 b c d e a 7,
  R3 a b c d e 8, R3 e a b c d 9, R3 d e a b c 10, R3 c d e a b 11, R3 b c d e a 12,
  R3 a b c d e 13, R3 e a b c d 14, R3 d e a b c 15, R3 c d e a b 0, R3 b c d e a 1,
  R3 a b c d e 2, R3 e a b c d 3, R3 d e a b c 4, R3 c d e a b 5, R3 b c d e a 6,
  R3 a b c d e 7, R3 e a b c d 8, R3 d e a b c 9, R3 c d e a b 10, R3 b c d e a 11,
  R4 a b c d e 12, R4 e a b c d 13, R4 d e a b c 14, R4 c d e a b 15, R4 b c d e a 0,
  R4 a b c d e 1, R4 e a b c d 2, R4 d e a b c 3, R4 c d e a b 4, R4 b c d e a 5,
  R4 a b c d e 6, R4 e a b c d 7, R4 d e a b c 8, R4 c d e a b 9, R4 b c d e a 10,
  R4 a b c d e 11, R4 e a b c d 12, R4 d e a b c 13, R4 c d e a b 14, R4 b c d e a 15]

/-- The digest with the block mixed in, what is left in the block's array, and
the count. -/
def transform (digest : Sha1.Words) (block : Block) (transforms : UInt64) :
    Sha1.Words × Block × UInt64 :=
  let s := lines.foldl (fun s line => line s) ⟨block, digest⟩
  (digest.add s.vars, s.block, transforms + 1)

/-! ## The operations, as the standard writes them -/

theorem rol_eq_rotl (x : UInt32) {k : Nat} (hpos : 0 < k) (h : k < 32) : rol x k = Sha1.rotl k x := by
  rw [← UInt32.toBitVec_inj]
  have hr : (32 - k) % 32 = 32 - k := Nat.mod_eq_of_lt (by omega)
  simp [rol, Sha1.rotl, BitVec.rotateLeft_def, Nat.mod_eq_of_lt h, hr]

/-- A choice with one operation less. -/
theorem choose_eq_ch (w x y : UInt32) : (w &&& (x ^^^ y)) ^^^ y = Sha1.ch w x y := by
  rw [← UInt32.toBitVec_inj]
  ext i hi
  simp only [Sha1.ch, UInt32.toBitVec_xor, UInt32.toBitVec_and, UInt32.toBitVec_not,
    BitVec.getElem_xor, BitVec.getElem_and, BitVec.getElem_not]
  cases w.toBitVec[i] <;> cases x.toBitVec[i] <;> cases y.toBitVec[i] <;> rfl

theorem majority_eq_maj (w x y : UInt32) : ((w ||| x) &&& y) ||| (w &&& x) = Sha1.maj w x y := by
  rw [← UInt32.toBitVec_inj]
  ext i hi
  simp only [Sha1.maj, UInt32.toBitVec_xor, UInt32.toBitVec_and, UInt32.toBitVec_or,
    BitVec.getElem_xor, BitVec.getElem_and, BitVec.getElem_or]
  cases w.toBitVec[i] <;> cases x.toBitVec[i] <;> cases y.toBitVec[i] <;> rfl

/-! ## The places of the variables -/

/-- Which variable stands at which place of a line. -/
structure Roles where
  v : Var
  w : Var
  x : Var
  y : Var
  z : Var

/-- The places in line `t`: what was written last comes first. -/
def roles : Nat → Roles
  | 0 => ⟨.a, .b, .c, .d, .e⟩
  | t + 1 => ⟨(roles t).z, (roles t).v, (roles t).w, (roles t).x, (roles t).y⟩

/-- The variables in the order of the standard. -/
def Roles.view (r : Roles) (s : Working) : Sha1.Words :=
  ⟨s.get r.v, s.get r.w, s.get r.x, s.get r.y, s.get r.z⟩

def Roles.Distinct (r : Roles) : Prop := [r.v, r.w, r.x, r.y, r.z].Nodup

instance (r : Roles) : Decidable r.Distinct := inferInstanceAs (Decidable (List.Nodup _))

theorem roles_distinct (t : Nat) : (roles t).Distinct := by
  induction t with
  | zero => decide
  | succ t ih =>
    have hperm : [(roles t).z, (roles t).v, (roles t).w, (roles t).x, (roles t).y].Perm
        ([(roles t).v, (roles t).w, (roles t).x, (roles t).y] ++ [(roles t).z]) :=
      @List.perm_append_comm _ [(roles t).z] _
    exact hperm.nodup_iff.mpr ih

def op (t : Nat) : Var → Var → Var → Var → Var → Fin 16 → Working → Working :=
  if t < 16 then R0 else if t < 20 then R1 else if t < 40 then R2 else if t < 60 then R3 else R4

def place (t : Nat) : Fin 16 := ⟨t % 16, Nat.mod_lt t (by omega)⟩

def lineAt (t : Nat) : Working → Working :=
  op t (roles t).v (roles t).w (roles t).x (roles t).y (roles t).z (place t)

set_option maxRecDepth 4000 in
theorem lines_eq : lines = (List.range 80).map lineAt := rfl

theorem lineAt_eq (t : Nat) (s : Working) : lineAt t s =
    mix (Sha1.logical t) (Sha1.constant t) (roles t).v (roles t).w (roles t).x (roles t).y
      (roles t).z (place t) (if t < 16 then s else refresh (place t) s) := by
  have hch : (fun w x y : UInt32 => (w &&& (x ^^^ y)) ^^^ y) = Sha1.ch :=
    funext fun w => funext fun x => funext fun y => choose_eq_ch w x y
  have hmaj : (fun w x y : UInt32 => ((w ||| x) &&& y) ||| (w &&& x)) = Sha1.maj :=
    funext fun w => funext fun x => funext fun y => majority_eq_maj w x y
  have hparity : (fun w x y : UInt32 => w ^^^ x ^^^ y) = Sha1.parity := rfl
  unfold lineAt op
  split
  · next h => rw [R0, hch, Sha1.logical, Sha1.constant, if_pos (by omega), if_pos (by omega)]
  split
  · next h => rw [R1, hch, Sha1.logical, Sha1.constant, if_pos h, if_pos h]
  split
  · next h20 h =>
    rw [R2, hparity, Sha1.logical, Sha1.constant, if_neg h20, if_neg h20, if_pos h, if_pos h]
  split
  · next h20 h40 h =>
    rw [R3, hmaj, Sha1.logical, Sha1.constant, if_neg h20, if_neg h20, if_neg h40, if_neg h40,
      if_pos h, if_pos h]
  · next h20 h40 h60 =>
    rw [R4, hparity, Sha1.logical, Sha1.constant, if_neg h20, if_neg h20, if_neg h40, if_neg h40,
      if_neg h60, if_neg h60]

@[simp] theorem mix_block (f : UInt32 → UInt32 → UInt32 → UInt32) (k : UInt32) (v w x y z : Var)
    (i : Fin 16) (s : Working) : (mix f k v w x y z i s).block = s.block := rfl

/-- A line computes the step of the standard; the places do the shifting. -/
theorem view_mix (t : Nat) (i : Fin 16) (s : Working) :
    (roles (t + 1)).view (mix (Sha1.logical t) (Sha1.constant t) (roles t).v (roles t).w (roles t).x
      (roles t).y (roles t).z i s) = Sha1.step t s.block[i] ((roles t).view s) := by
  have hd := roles_distinct t
  simp only [Roles.Distinct, List.nodup_cons, List.mem_cons, List.not_mem_nil, or_false, not_or] at hd
  obtain ⟨⟨hvw, hvx, hvy, hvz⟩, ⟨hwx, hwy, hwz⟩, ⟨hxy, hxz⟩, hyz, -⟩ := hd
  simp only [roles, Roles.view, mix, Sha1.step, Working.get_set_self,
    Working.get_set_ne _ hvw, Working.get_set_ne _ hvz, Working.get_set_ne _ (Ne.symm hwz),
    Working.get_set_ne _ hwz, Working.get_set_ne _ (Ne.symm hwx), Working.get_set_ne _ hxz,
    Working.get_set_ne _ (Ne.symm hwy), Working.get_set_ne _ hyz,
    rol_eq_rotl _ (show 0 < 5 by omega) (show 5 < 32 by omega),
    rol_eq_rotl _ (show 0 < 30 by omega) (show 30 < 32 by omega), Sha1.Words.mk.injEq, and_true]
  ac_rfl

/-! ## The array of 16 words -/

/-- The array holds the 16 words before word `t`. -/
def Window (words : List UInt32) (t : Nat) (block : Block) : Prop :=
  ∀ j, j < t → t ≤ j + 16 → ∀ i, (hi : i < 16) → i = j % 16 → block[i] = Sha1.word words j

theorem window_start (block : Block) : Window block.toList 16 block := by
  intro j hj _ i hi hij
  obtain rfl : i = j := by omega
  rw [Sha1.word_of_block (by simpa using hj)]
  simp [List.getD_eq_getElem?_getD, hi]

theorem blk_of_window {words : List UInt32} (hw : words.length = 16) {t : Nat} (hlo : 16 ≤ t)
    (hhi : t < 80) {block : Block} (h : Window words t block) :
    blk block (place t) = Sha1.word words t := by
  have mask : ∀ n : Nat, n &&& 15 = n % 16 := fun n => Nat.and_two_pow_sub_one_eq_mod n 4
  have hat : ∀ k, 0 < k → k ≤ 16 → block[low4 ((place t).val + (16 - k))] = Sha1.word words (t - k) :=
    fun k hk hk' => h (t - k) (by omega) (by omega) _ _ (by
      simp only [low4, place, mask]
      omega)
  have h3 : block[low4 ((place t).val + 13)] = Sha1.word words (t - 3) := hat 3 (by omega) (by omega)
  have h8 : block[low4 ((place t).val + 8)] = Sha1.word words (t - 8) := hat 8 (by omega) (by omega)
  have h14 : block[low4 ((place t).val + 2)] = Sha1.word words (t - 14) :=
    hat 14 (by omega) (by omega)
  have hlast : block[place t] = Sha1.word words (t - 16) :=
    h (t - 16) (by omega) (by omega) _ _ (by simp only [place]; omega)
  rw [Sha1.word_of_later hw hlo hhi, blk, rol_eq_rotl _ (by omega) (by omega), h3, h8, h14, hlast]

theorem Window.refresh {words : List UInt32} (hw : words.length = 16) {t : Nat} (hlo : 16 ≤ t)
    (hhi : t < 80) {s : Working} (h : Window words t s.block) :
    Window words (t + 1) (refresh (place t) s).block := by
  intro j hj hjt i hi hij
  show (s.block.set (place t) (blk s.block (place t)))[i] = _
  rw [blk_of_window hw hlo hhi h, Vector.getElem_set]
  split
  · next heq =>
    obtain rfl : t = j := by
      simp only [place] at heq
      omega
    rfl
  · next hne =>
    refine h j ?_ (by omega) i hi hij
    simp only [place] at hne
    omega

/-! ## The whole block function -/

/-- Before line `t` the variables are those of the standard before step `t`. -/
structure At (words : List UInt32) (digest : Sha1.Words) (t : Nat) (s : Working) : Prop where
  window : Window words (max t 16) s.block
  view : (roles t).view s = Sha1.steps words digest t

theorem At.step {words : List UInt32} (hw : words.length = 16) {digest : Sha1.Words} {t : Nat}
    (ht : t < 80) {s : Working} (h : At words digest t s) : At words digest (t + 1) (lineAt t s) := by
  rw [lineAt_eq]
  split
  · next hlt =>
    have hword : s.block[place t] = Sha1.word words t :=
      h.window t (by omega) (by omega) _ _ rfl
    refine ⟨?_, ?_⟩
    · rw [mix_block, show max (t + 1) 16 = max t 16 by omega]
      exact h.window
    · rw [view_mix, hword, h.view]
      rfl
  · next hge =>
    have hlo : 16 ≤ t := by omega
    have hwin : Window words t s.block := by
      have := h.window
      rwa [show max t 16 = t by omega] at this
    have hnext := hwin.refresh hw hlo ht
    have hword : (refresh (place t) s).block[place t] = Sha1.word words t :=
      hnext t (by omega) (by omega) _ _ rfl
    refine ⟨?_, ?_⟩
    · rw [mix_block, show max (t + 1) 16 = t + 1 by omega]
      exact hnext
    · rw [view_mix, hword, show (roles t).view (refresh (place t) s) = (roles t).view s from rfl, h.view]
      rfl

theorem at_lines {words : List UInt32} (hw : words.length = 16) {digest : Sha1.Words} {s : Working}
    (h : At words digest 0 s) {t : Nat} (ht : t ≤ 80) :
    At words digest t (((List.range t).map lineAt).foldl (fun s line => line s) s) := by
  induction t with
  | zero => exact h
  | succ t ih =>
    rw [List.range_succ, List.map_append, List.foldl_append]
    exact (ih (by omega)).step hw (by omega)

theorem at_end (digest : Sha1.Words) (block : Block) :
    At block.toList digest 80 (lines.foldl (fun s line => line s) ⟨block, digest⟩) := by
  have hstart : At block.toList digest 0 ⟨block, digest⟩ := ⟨window_start block, rfl⟩
  rw [lines_eq]
  exact at_lines Vector.length_toList hstart (Nat.le_refl 80)

theorem transform_digest (digest : Sha1.Words) (block : Block) (transforms : UInt64) :
    (transform digest block transforms).1 = Sha1.compress digest block.toList := by
  -- after 80 lines every variable is back at its first place
  have hroles : roles 80 = roles 0 := rfl
  have hview := (at_end digest block).view
  rw [hroles] at hview
  exact congrArg digest.add hview

/-- The unrolled lines are the compression function of the standard, whatever
the digest and the block. In the array they leave the last 16 words of its
schedule. -/
theorem transform_eq (digest : Sha1.Words) (block : Block) (transforms : UInt64) :
    transform digest block transforms =
      (Sha1.compress digest block.toList,
        Vector.ofFn fun i : Fin 16 => Sha1.word block.toList (64 + i), transforms + 1) := by
  have hblock : (transform digest block transforms).2.1 =
      Vector.ofFn fun i : Fin 16 => Sha1.word block.toList (64 + i) := by
    apply Vector.ext
    intro i hi
    rw [Vector.getElem_ofFn]
    exact (at_end digest block).window (64 + i) (by omega) (by omega) i hi (by omega)
  exact Prod.ext (transform_digest digest block transforms) (Prod.ext hblock rfl)

end Bittorrent.Misc

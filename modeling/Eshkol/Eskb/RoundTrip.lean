import Mathlib.Data.List.TakeWhile
import Eshkol.Eskb.Safety

/-!
# Loading what was written

The writer and the loader are separate files with separately chosen limits. This file follows
the loader over the writer's output: every primitive reads back what was written, so a file
loads to the module `expectedModule` whenever it stays inside the loader's limits, and the
loader's own guarantees show that outside of them it does not.
-/

namespace Eskb

open ErrorState ByteCodec

/-! ## What a written module loads to -/

/-- The slot a constant loads to. A boolean is stored as 0 or 1. -/
def EskbConst.loaded (c : EskbConst) : LoadedConst :=
  if c.ctype = constNil then ⟨c.ctype, 0, 0, none⟩
  else if c.ctype = constInt64 then ⟨c.ctype, c.as, 0, none⟩
  else if c.ctype = constF64 then ⟨c.ctype, 0, c.as, none⟩
  else if c.ctype = constBool then ⟨c.ctype, if c.b ≠ 0 then 1 else 0, 0, none⟩
  else if c.ctype = constString then ⟨c.ctype, BitVec.ofNat 64 c.str.length, 0, some c.str⟩
  else ⟨c.ctype, c.as, 0, none⟩

/-- An instruction of a function that was compiled at `base` and now starts at `off`. -/
def EskbInstr.rebase (i : EskbInstr) (base off : ℤ) : EskbInstr :=
  if operandIsCodeTarget i.op then { i with operand := i.operand - base + off } else i

/-- The function a definition loads to when its code is placed at `off`. -/
def EskbFunctionDef.loaded (fn : EskbFunctionDef) (off : ℕ) : EskbFunction where
  name := fn.name.1
  nParams := fn.nParams.toNat
  nLocals := fn.nLocals.toNat
  nUpvalues := fn.nUpvalues.toNat
  codeOffset := off
  codeLen := fn.code.length

def loadedFunctions : ℕ → List EskbFunctionDef → List EskbFunction
  | _, [] => []
  | off, fn :: fns => fn.loaded off :: loadedFunctions (off + fn.code.length) fns

def loadedCode : ℕ → List EskbFunctionDef → List EskbInstr
  | _, [] => []
  | off, fn :: fns =>
    fn.code.map (·.rebase fn.codeBase off) ++ loadedCode (off + fn.code.length) fns

def totalCode (fns : List EskbFunctionDef) : ℕ := (fns.map (·.code.length)).sum

/-- The same constants, functions and source file, with every code target moved along with
its function. -/
def expectedModule (constants : List EskbConst) (functions : List EskbFunctionDef)
    (sourceFile : Option CStr) : EskbModule where
  code := loadedCode 0 functions
  codeLen := totalCode functions
  constants := some (constants.map (·.loaded))
  functions := some (loadedFunctions 0 functions)
  sourceFile := (sourceFile.map (·.1)).getD []
  hasDebug := sourceFile.isSome

/-- The code targets of a function stay inside it, relative to `code_base`. -/
def EskbFunctionDef.TargetsOk (fn : EskbFunctionDef) : Prop :=
  ∀ i ∈ fn.code, operandIsCodeTarget i.op →
    fn.codeBase ≤ i.operand ∧ i.operand < fn.codeBase + fn.code.length

instance (fn : EskbFunctionDef) : Decidable fn.TargetsOk := inferInstanceAs (Decidable (∀ _ ∈ _, _ → _))

/-! ## The bytes ahead of a reader -/

lemma EskbReader.load_pos_add (r : EskbReader) (i : ℕ) : r.load (r.pos + i) = r.rest[i]? := by
  rw [EskbReader.load, EskbReader.rest, List.getElem?_drop, List.getElem?_take,
    List.getElem?_drop]

lemma EskbReader.Valid.length_rest {r : EskbReader} (h : r.Valid) :
    r.rest.length = r.len - r.pos := by
  have := h.base_le
  rw [EskbReader.rest, List.length_drop, List.length_take, List.length_drop]
  omega

lemma LoadState.rest_advance (s : LoadState) (n : ℕ) :
    (s.advance n).r.rest = s.r.rest.drop n := by
  simp [LoadState.advance, EskbReader.rest, List.drop_drop]

lemma LoadState.rest_advance_of_append {s : LoadState} {bs t : List UInt8}
    (h : s.r.rest = bs ++ t) : (s.advance bs.length).r.rest = t := by
  rw [s.rest_advance, h, List.drop_left]

@[simp] lemma LoadState.advance_advance (s : LoadState) (m n : ℕ) :
    (s.advance m).advance n = s.advance (m + n) := by
  simp [LoadState.advance, Nat.add_assoc]

/-- A valid reader on a window the loader's `int` casts can see. -/
structure LoadState.Fits (s : LoadState) : Prop where
  valid : s.r.Valid
  len_le : s.r.len ≤ intMax

lemma EskbReader.Valid.advance {s : LoadState} (h : s.r.Valid) {bs t : List UInt8}
    (hr : s.r.rest = bs ++ t) : (s.advance bs.length).r.Valid := by
  have hl := h.length_rest
  have hp := h.pos_le
  rw [hr, List.length_append] at hl
  refine ⟨h.base_le, ?_⟩
  simp only [LoadState.advance]
  omega

lemma LoadState.Fits.advance {s : LoadState} (h : s.Fits) {bs t : List UInt8}
    (hr : s.r.rest = bs ++ t) : (s.advance bs.length).Fits :=
  ⟨h.valid.advance hr, h.len_le⟩

/-- A state that differs only in the module fits alike. -/
lemma LoadState.Fits.of_reader {s t : LoadState} (h : s.Fits) (hr : t.r = s.r) : t.Fits :=
  ⟨by rw [hr]; exact h.valid, by rw [hr]; exact h.len_le⟩

/-! ## Bytes and words -/

lemma loadByte_runs {s : LoadState} {n : ℕ} {b : UInt8} (h : s.r.rest[n]? = some b) :
    Runs (loadByte (s.r.pos + n)) s b s := by
  refine .bind (.get s) ?_
  rw [s.r.load_pos_add, h]
  rfl

lemma eskbReadU8_runs {s : LoadState} {b : UInt8} {t : List UInt8} (h : s.r.Valid)
    (hr : s.r.rest = b :: t) : Runs eskbReadU8 s b (s.advance 1) := by
  have hl := h.length_rest
  rw [hr, List.length_cons] at hl
  have hpos : ¬ s.r.pos ≥ s.r.len := by omega
  have hbyte : Runs (loadByte (s.r.pos + 0)) s b s := loadByte_runs (by rw [hr]; rfl)
  refine .bind (.get s) ?_
  rw [if_neg hpos]
  exact .bind hbyte rfl

lemma eskbReadBytes_runs {s : LoadState} {bs t : List UInt8} (h : s.Fits)
    (hr : s.r.rest = bs ++ t) : Runs (eskbReadBytes bs.length) s bs (s.advance bs.length) := by
  have hl := h.valid.length_rest
  have hp := h.valid.pos_le
  have hb := h.valid.base_le
  have hm := h.len_le
  simp only [intMax] at hm
  rw [hr, List.length_append] at hl
  have hsum : ¬ (s.r.pos + bs.length) % 2 ^ 64 > s.r.len := by
    rw [Nat.mod_eq_of_lt (by omega)]
    omega
  have hslice : s.r.slice s.r.pos bs.length = some bs := by
    rw [EskbReader.slice, if_pos (by omega)]
    congr 1
    have hrest : s.r.rest.take bs.length = bs := by rw [hr, List.take_left]
    rw [EskbReader.rest, List.drop_take, List.take_take, List.drop_drop] at hrest
    rw [Nat.min_eq_left (by omega)] at hrest
    exact hrest
  refine .bind (.get s) ?_
  rw [if_neg hsum, hslice]
  rfl

lemma eskbReadWord64_runs {s : LoadState} {w : BitVec 64} {t : List UInt8} (h : s.Fits)
    (hr : s.r.rest = eskbBufWriteWord64 w ++ t) :
    Runs eskbReadWord64 s w (s.advance (eskbBufWriteWord64 w).length) := by
  have hbytes := eskbReadBytes_runs h hr
  have hlen : (eskbBufWriteWord64 w).length = 8 := length_toLE _ _
  rw [hlen] at hbytes ⊢
  have hval : BitVec.ofNat 64 (ofLE (eskbBufWriteWord64 w)) = w := by
    rw [eskbBufWriteWord64, ofLE_toLE_of_lt (by have := w.isLt; norm_num at this ⊢; exact this)]
    exact BitVec.ofNat_toNat _ _ |>.trans (BitVec.setWidth_eq w)
  refine .bind hbytes ?_
  rw [hval]
  rfl

/-! ## Variable-length numbers -/

lemma writeLebGroups_length_le (fuel v : ℕ) : (writeLebGroups fuel v).length ≤ fuel := by
  induction fuel generalizing v with
  | zero => exact le_rfl
  | succ fuel ih =>
    rw [writeLebGroups]
    split
    · rw [List.length_cons]
      have := ih (v >>> 7)
      omega
    · simp

lemma eskbWriteLeb128_length_le (v : ℕ) : (eskbWriteLeb128 v).length ≤ 10 :=
  writeLebGroups_length_le 10 v

lemma writeLebGroups_pos (fuel v : ℕ) : 0 < (writeLebGroups (fuel + 1) v).length := by
  rw [writeLebGroups]
  split <;> simp

/-- The decoding loop over the groups of `v`: it reads exactly the groups and adds `v` in above
the bits already read, unless the cast of the buffer length stops it. -/
lemma readLebGroups_write {s : LoadState} {t : List UInt8} :
    ∀ (fuel n out v : ℕ), 0 < fuel → s.r.rest.drop n = writeLebGroups fuel v ++ t →
      v < 2 ^ (7 * fuel) → out < 2 ^ (7 * n) → out + v * 2 ^ (7 * n) < 2 ^ 64 →
      readLebGroups s.r.pos (s.r.len - s.r.pos) fuel n out s
          = .ok (out + v * 2 ^ (7 * n), n + (writeLebGroups fuel v).length) s ∨
        castInt (s.r.len - s.r.pos) < (n + (writeLebGroups fuel v).length : ℕ) ∧
          readLebGroups s.r.pos (s.r.len - s.r.pos) fuel n out s = .error .reject s := by
  intro fuel
  induction fuel with
  | zero => intro n out v h; omega
  | succ fuel ih =>
    intro n out v _ hrest hv hout hsum
    have hlow : v &&& 0x7F = v % 128 := and_low7 v
    have hmod : v % 128 < 128 := Nat.mod_lt _ (by norm_num)
    have hshift : v >>> 7 = v / 128 := by rw [Nat.shiftRight_eq_div_pow]
    have hpow : 2 ^ (7 * (n + 1)) = 128 * 2 ^ (7 * n) := by rw [Nat.mul_succ, pow_add]; ring
    -- the value splits into its low group and the rest
    have hsplit : out + v * 2 ^ (7 * n)
        = (out + v % 128 * 2 ^ (7 * n)) + v / 128 * 2 ^ (7 * (n + 1)) := by
      have : v = 128 * (v / 128) + v % 128 := (Nat.div_add_mod v 128).symm
      rw [hpow]
      nlinarith [this]
    have hacc : (out ||| ((v % 128) <<< (7 * n))) % 2 ^ 64 = out + v % 128 * 2 ^ (7 * n) := by
      rw [or_shiftLeft_eq_add hout, Nat.mod_eq_of_lt]
      rw [hsplit] at hsum
      omega
    have hacc_lt : out + v % 128 * 2 ^ (7 * n) < 2 ^ (7 * (n + 1)) := by
      rw [hpow]
      nlinarith [Nat.two_pow_pos (7 * n)]
    rw [writeLebGroups, hlow, hshift] at hrest ⊢
    rw [readLebGroups]
    by_cases hcast : (n : ℤ) < castInt (s.r.len - s.r.pos)
    · rw [if_pos hcast]
      by_cases hmore : v / 128 ≠ 0
      · -- a continuation byte
        rw [if_pos hmore, or_high_bit hmod] at hrest ⊢
        have hbyte : Runs (loadByte (s.r.pos + n)) s (UInt8.ofNat (v % 128 + 128)) s := by
          refine loadByte_runs ?_
          have := congrArg (·[0]?) hrest
          simpa [List.getElem?_drop] using this
        have htoNat : (UInt8.ofNat (v % 128 + 128)).toNat = v % 128 + 128 :=
          toNat_ofNat_of_lt (by omega)
        have hfuel : 0 < fuel := by
          rcases Nat.eq_zero_or_pos fuel with rfl | h
          · norm_num at hv
            omega
          · exact h
        have hv' : v / 128 < 2 ^ (7 * fuel) := by
          rw [Nat.div_lt_iff_lt_mul (by norm_num)]
          rw [Nat.mul_succ, pow_add] at hv
          norm_num at hv ⊢
          exact hv
        have hrest' : s.r.rest.drop (n + 1) = writeLebGroups fuel (v / 128) ++ t := by
          rw [← List.drop_drop, hrest]
          rfl
        rw [hbyte.bind_eq]
        simp only [htoNat]
        rw [if_neg (cont_and_high_bit hmod), cont_and_low7 hmod, hacc]
        have hrec := ih (n + 1) (out + v % 128 * 2 ^ (7 * n)) (v / 128) hfuel hrest' hv' hacc_lt
          (by rw [← hsplit]; exact hsum)
        rw [← hsplit] at hrec
        have hcount : n + 1 + (writeLebGroups fuel (v / 128)).length
            = n + (UInt8.ofNat (v % 128 + 128) :: writeLebGroups fuel (v / 128)).length := by
          rw [List.length_cons]
          omega
        rw [hcount] at hrec
        exact hrec
      · -- the last byte
        rw [if_neg hmore] at hrest ⊢
        have hbyte : Runs (loadByte (s.r.pos + n)) s (UInt8.ofNat (v % 128)) s := by
          refine loadByte_runs ?_
          have := congrArg (·[0]?) hrest
          simpa [List.getElem?_drop] using this
        have htoNat : (UInt8.ofNat (v % 128)).toNat = v % 128 := toNat_ofNat_of_lt (by omega)
        left
        rw [hbyte.bind_eq]
        simp only [htoNat]
        rw [if_pos (group_and_high_bit hmod), and_low7, Nat.mod_mod, hacc]
        have hzero : v / 128 = 0 := not_not.1 hmore
        rw [hsplit, hzero]
        simp
        rfl
    · right
      rw [if_neg hcast]
      refine ⟨?_, rfl⟩
      have hpos : 0 < (if v / 128 ≠ 0 then
          UInt8.ofNat (v % 128 ||| 0x80) :: writeLebGroups fuel (v / 128)
          else [UInt8.ofNat (v % 128)]).length := by
        split <;> simp
      omega

lemma castInt_of_le {n : ℕ} (h : n ≤ intMax) : castInt n = n := by
  simp only [intMax] at h
  rw [castInt, BitVec.toInt_eq_toNat_of_lt, BitVec.toNat_ofNat, Nat.mod_eq_of_lt (by omega)]
  rw [BitVec.toNat_ofNat, Nat.mod_eq_of_lt (by omega)]
  omega

/-- Reading a written number ends with the number or with a rejection. -/
lemma eskbReadLeb_write {s : LoadState} {v : ℕ} {t : List UInt8} (h : s.r.Valid)
    (hr : s.r.rest = eskbWriteLeb128 v ++ t) (hv : v < 2 ^ 64) :
    Runs eskbReadLeb s v (s.advance (eskbWriteLeb128 v).length) ∨
      castInt (s.r.len - s.r.pos) < ((eskbWriteLeb128 v).length : ℕ) ∧
        eskbReadLeb s = .error .reject s := by
  have hl := h.length_rest
  have hwpos : 0 < (eskbWriteLeb128 v).length := writeLebGroups_pos 9 v
  rw [hr, List.length_append] at hl
  have hpos : ¬ s.r.pos ≥ s.r.len := by omega
  have hgroups := readLebGroups_write (s := s) (t := t) 10 0 0 v (by norm_num)
    (by rw [List.drop_zero]; exact hr) (by omega) (by norm_num) (by simpa using hv)
  simp only [Nat.mul_zero, pow_zero, Nat.mul_one, Nat.zero_add] at hgroups
  rcases hgroups with hok | ⟨hcast, herr⟩
  · left
    refine .bind (.get s) ?_
    rw [if_neg hpos]
    exact .bind hok rfl
  · right
    refine ⟨hcast, ?_⟩
    rw [eskbReadLeb, (Runs.get s).bind_eq, if_neg hpos]
    show EStateM.bind _ _ s = _
    unfold EStateM.bind
    rw [herr]

lemma eskbReadLeb_runs {s : LoadState} {v : ℕ} {t : List UInt8} (h : s.Fits)
    (hr : s.r.rest = eskbWriteLeb128 v ++ t) (hv : v < 2 ^ 64) :
    Runs eskbReadLeb s v (s.advance (eskbWriteLeb128 v).length) := by
  rcases eskbReadLeb_write h.valid hr hv with hok | ⟨hcast, _⟩
  · exact hok
  · exfalso
    have hl := h.valid.length_rest
    rw [hr, List.length_append] at hl
    rw [castInt_of_le (le_trans (Nat.sub_le _ _) h.len_le)] at hcast
    omega

/-- A number that was read where `v` was written is `v`. -/
lemma eskbReadLeb_inv {s s' : LoadState} {v x : ℕ} {t : List UInt8} (h : s.r.Valid)
    (hr : s.r.rest = eskbWriteLeb128 v ++ t) (hv : v < 2 ^ 64) (hrun : Runs eskbReadLeb s x s') :
    x = v ∧ s' = s.advance (eskbWriteLeb128 v).length := by
  rcases eskbReadLeb_write h hr hv with hok | ⟨_, herr⟩
  · exact hrun.unique hok
  · rw [show eskbReadLeb s = .ok x s' from hrun] at herr
    cases herr

/-- A number can only be read where the `int` cast of what is left is positive. -/
lemma eskbReadLeb_castInt_pos {s s' : LoadState} {x : ℕ} (hrun : Runs eskbReadLeb s x s') :
    0 < castInt (s.r.len - s.r.pos) := by
  by_contra hneg
  obtain ⟨_, _, hget, hrun⟩ := hrun.of_bind
  cases hget
  split at hrun
  · cases hrun
  · obtain ⟨_, _, hloop, _⟩ := hrun.of_bind
    rw [readLebGroups, if_neg (by simpa using hneg)] at hloop
    cases hloop

/-! ## Strings and instructions -/

section reads
variable {s : LoadState} {t : List UInt8}

lemma eskbReadString_runs {str : List UInt8} (h : s.Fits) (hlen : str.length ≤ 255)
    (hr : s.r.rest = eskbBufWriteString str ++ t) :
    Runs (eskbReadString 256) s str (s.advance (eskbBufWriteString str).length) := by
  rw [eskbBufWriteString, List.append_assoc] at hr
  have hrest := s.rest_advance_of_append hr
  have hfit := h.advance hr
  refine .bind (eskbReadLeb_runs h hr (by omega)) ?_
  rw [if_neg (by omega)]
  have hbytes := eskbReadBytes_runs hfit hrest
  rwa [LoadState.advance_advance, ← List.length_append] at hbytes

lemma eskbReadStringAlloc_runs {a : Allocator} (ha : ∀ n < 2 ^ 63, a.grants n = true)
    {str : List UInt8} (h : s.Fits) (hr : s.r.rest = eskbBufWriteString str ++ t) :
    Runs (eskbReadStringAlloc a) s str (s.advance (eskbBufWriteString str).length) := by
  have hl := h.valid.length_rest
  have hm := h.len_le
  rw [hr, eskbBufWriteString, List.length_append, List.length_append] at hl
  simp only [intMax] at hm
  rw [eskbBufWriteString, List.append_assoc] at hr
  have hrest := s.rest_advance_of_append hr
  have hfit := h.advance hr
  refine .bind (eskbReadLeb_runs h hr (by omega)) ?_
  rw [if_neg (by simp only [sizeMax]; omega), if_pos (ha _ (by omega))]
  have hbytes := eskbReadBytes_runs hfit hrest
  rwa [LoadState.advance_advance, ← List.length_append] at hbytes

end reads

/-- The sign word of a small non-negative number is zero. -/
private lemma sshiftRight_ofNat {n : ℕ} (h : n < 2 ^ 31) :
    (BitVec.ofNat 64 n).sshiftRight 63 = 0#64 := by
  have hmsb : (BitVec.ofNat 64 n).msb = false := by
    rw [BitVec.msb_eq_false_iff_two_mul_lt, BitVec.toNat_ofNat, Nat.mod_eq_of_lt (by omega)]
    omega
  rw [BitVec.sshiftRight_eq_of_msb_false hmsb]
  apply BitVec.eq_of_toNat_eq
  rw [BitVec.toNat_ushiftRight, BitVec.toNat_ofNat, Nat.mod_eq_of_lt (by omega),
    Nat.shiftRight_eq_div_pow]
  exact Nat.div_eq_of_lt (by omega)

/-- The zigzag image interleaves the non-negative and the negative operands. -/
lemma zigzag_eq {x : ℤ} (h : IsInt32 x) :
    (zigzag x : ℤ) = if 0 ≤ x then 2 * x else -2 * x - 1 := by
  obtain ⟨hlo, hhi⟩ := h
  cases x with
  | ofNat n =>
    simp only [Int.ofNat_eq_natCast] at hhi ⊢
    have hn : n < 2 ^ 31 := by exact_mod_cast hhi
    rw [if_pos (Int.natCast_nonneg n), zigzag, BitVec.ofInt_natCast, sshiftRight_ofNat hn,
      BitVec.xor_zero, BitVec.toNat_shiftLeft, BitVec.toNat_ofNat,
      Nat.mod_eq_of_lt (by omega : n < 2 ^ 64), Nat.shiftLeft_eq, Nat.mod_eq_of_lt (by omega)]
    push_cast
    ring
  | negSucc n =>
    have hn : n < 2 ^ 31 := by
      rw [Int.negSucc_eq] at hlo
      omega
    rw [if_neg (by rw [Int.negSucc_eq]; omega), zigzag, BitVec.ofInt_negSucc_eq_not_ofNat,
      ← BitVec.not_sshiftRight, sshiftRight_ofNat hn]
    have hones : ~~~(0#64) = BitVec.allOnes 64 := by decide
    rw [hones, BitVec.xor_allOnes, BitVec.toNat_not, BitVec.toNat_shiftLeft, BitVec.toNat_not,
      BitVec.toNat_ofNat, Nat.mod_eq_of_lt (by omega : n < 2 ^ 64), Nat.shiftLeft_eq,
      Int.negSucc_eq]
    omega

lemma zigzag_le {x : ℤ} (h : IsInt32 x) : zigzag x ≤ uint32Max := by
  have hz := zigzag_eq h
  obtain ⟨hlo, hhi⟩ := h
  simp only [uint32Max]
  split at hz <;> omega

lemma eskbReadInstruction_runs {s : LoadState} {t : List UInt8} {i : EskbInstr} (h : s.Fits)
    (hi : IsInt32 i.operand) (hr : s.r.rest = eskbWriteInstruction i ++ t) :
    Runs eskbReadInstruction s i (s.advance (eskbWriteInstruction i).length) := by
  have hle := zigzag_le hi
  have hz := zigzag_eq hi
  obtain ⟨hlo, hhi⟩ := hi
  have hr₁ : s.r.rest = [i.op] ++ (eskbWriteLeb128 (zigzag i.operand) ++ t) := hr
  have hrest := s.rest_advance_of_append hr₁
  have hfit := h.advance hr₁
  refine .bind (eskbReadU8_runs h.valid hr₁) ?_
  refine .bind (eskbReadLeb_runs hfit hrest (by simp only [uint32Max] at hle; omega)) ?_
  rw [if_neg (by omega)]
  -- halving the zigzag image undoes the interleaving
  have hdecode : (if zigzag i.operand &&& 1 ≠ 0 then -((zigzag i.operand >>> 1 : ℕ) : ℤ) - 1
      else ((zigzag i.operand >>> 1 : ℕ) : ℤ)) = i.operand := by
    rw [Nat.and_one_is_mod, Nat.shiftRight_eq_div_pow]
    split at hz <;> split <;> omega
  simp only [hdecode]
  rw [if_neg (by omega), LoadState.advance_advance]
  have hlen : 1 + (eskbWriteLeb128 (zigzag i.operand)).length
      = (eskbWriteInstruction i).length := by
    rw [eskbWriteInstruction, List.length_cons]
    omega
  rw [hlen]
  rfl

/-! ## Constants -/

/-- The state after `n` more bytes, with the module replaced. -/
def LoadState.at (s : LoadState) (n : ℕ) (m : EskbModule) : LoadState :=
  { s.advance n with mod := m }

@[simp] lemma LoadState.at_mod (s : LoadState) (n : ℕ) (m : EskbModule) :
    (s.at n m).mod = m := rfl

@[simp] lemma LoadState.at_at (s : LoadState) (n k : ℕ) (m m' : EskbModule) :
    (s.at n m).at k m' = s.at (n + k) m' := by
  simp [LoadState.at, LoadState.advance, Nat.add_assoc]

lemma LoadState.rest_at_of_append {s : LoadState} {bs t : List UInt8}
    (h : s.r.rest = bs ++ t) (m : EskbModule) : (s.at bs.length m).r.rest = t :=
  s.rest_advance_of_append h

lemma LoadState.Fits.at {s : LoadState} (h : s.Fits) {bs t : List UInt8}
    (hr : s.r.rest = bs ++ t) (m : EskbModule) : (s.at bs.length m).Fits :=
  (h.advance hr).of_reader rfl

lemma expectEnd_runs {s : LoadState} (h : s.r.Valid) (hr : s.r.rest = []) :
    Runs expectEnd s () s := by
  have hl := h.length_rest
  have hp := h.pos_le
  rw [hr, List.length_nil] at hl
  refine .bind (.get s) ?_
  rw [if_neg (by omega)]
  rfl

/-! ## Functions -/

@[simp] lemma EskbInstr.rebase_op (i : EskbInstr) (base off : ℤ) :
    (i.rebase base off).op = i.op := by
  unfold EskbInstr.rebase
  split <;> rfl

lemma EskbInstr.rebase_of_not (i : EskbInstr) (base off : ℤ)
    (h : ¬ operandIsCodeTarget i.op = true) : i.rebase base off = i := by
  rw [EskbInstr.rebase, if_neg h]

/-- In a function whose targets are its own addresses the writer relocates every
instruction. -/
lemma EskbFunctionDef.TargetsOk.relocate {fn : EskbFunctionDef} (h : fn.TargetsOk)
    {i : EskbInstr} (hi : i ∈ fn.code) : fn.relocate i = some (i.rebase fn.codeBase 0) := by
  unfold EskbFunctionDef.relocate EskbInstr.rebase
  by_cases htgt : operandIsCodeTarget i.op = true
  · have hin := h i hi htgt
    by_cases hbase : fn.codeBase = 0
    · rw [if_neg (by simp [hbase]), if_pos htgt]
      simp [hbase]
    · rw [if_pos ⟨hbase, htgt⟩, if_neg (by omega), if_pos htgt]
      simp
  · rw [if_neg (by simp [htgt]), if_neg htgt]

lemma EskbFunctionDef.TargetsOk.mapM_relocate {fn : EskbFunctionDef} (h : fn.TargetsOk) :
    fn.code.mapM fn.relocate = some (fn.code.map (·.rebase fn.codeBase 0)) := by
  have hall : ∀ l : List EskbInstr, (∀ i ∈ l, i ∈ fn.code) →
      l.mapM fn.relocate = some (l.map (·.rebase fn.codeBase 0)) := by
    intro l
    induction l with
    | nil => exact fun _ => rfl
    | cons i l ih =>
      intro hl
      rw [List.mapM_cons, h.relocate (hl i (List.mem_cons_self ..)),
        ih fun j hj => hl j (List.mem_cons_of_mem _ hj)]
      rfl
  exact hall fn.code fun _ hi => hi

/-- A relocated operand is an `int32_t`, and a target one an address of the function. -/
lemma EskbFunctionDef.TargetsOk.rebase_int32 {fn : EskbFunctionDef} (h : fn.TargetsOk)
    (hlen : fn.code.length ≤ vmMaxCode) {i : EskbInstr} (hi : i ∈ fn.code) :
    IsInt32 (i.rebase fn.codeBase 0).operand ∧ (operandIsCodeTarget i.op →
      0 ≤ (i.rebase fn.codeBase 0).operand ∧
        (i.rebase fn.codeBase 0).operand < fn.code.length) := by
  simp only [vmMaxCode] at hlen
  by_cases htgt : operandIsCodeTarget i.op = true
  · have hin := h i hi htgt
    rw [EskbInstr.rebase, if_pos htgt]
    simp only [IsInt32]
    omega
  · rw [EskbInstr.rebase_of_not i _ _ htgt]
    exact ⟨fn.code_int32 i hi, fun ht => absurd ht htgt⟩

/-- The bytes of a function whose targets are its own addresses. -/
def functionBytes (fn : EskbFunctionDef) : List UInt8 :=
  eskbBufWriteString fn.name.1 ++ ([fn.nParams] ++ (eskbWriteLeb128 fn.nLocals.toNat
    ++ ([fn.nUpvalues] ++ (eskbWriteLeb128 fn.code.length
    ++ (fn.code.map (·.rebase fn.codeBase 0)).flatMap eskbWriteInstruction))))

lemma eskbWriteFunction_eq {fn : EskbFunctionDef} (h : fn.TargetsOk) {bs : List UInt8}
    (hw : eskbWriteFunction fn = some bs) :
    bs = functionBytes fn ∧ fn.name.1 ≠ [] ∧ fn.name.1.length ≤ 255 ∧ fn.code ≠ [] := by
  unfold eskbWriteFunction at hw
  rw [h.mapM_relocate] at hw
  split_ifs at hw with hempty hlong
  · simp only [Option.bind_eq_bind, Option.bind_some, Option.some.injEq] at hw
    rw [not_or] at hempty
    refine ⟨?_, hempty.1, by omega, hempty.2⟩
    rw [← hw]
    simp [functionBytes, List.append_assoc]

lemma readInstrs_runs {t : List UInt8} (off cl : ℕ) (code : List EskbInstr) :
    ∀ {s : LoadState}, s.Fits → s.r.rest = code.flatMap eskbWriteInstruction ++ t →
      (∀ i ∈ code, IsInt32 i.operand ∧
        (operandIsCodeTarget i.op → 0 ≤ i.operand ∧ i.operand < cl)) →
      Runs (readInstrs off cl code.length) s () (s.at (code.flatMap eskbWriteInstruction).length
        { s.mod with code := s.mod.code ++ code.map (·.rebase 0 off) }) := by
  induction code with
  | nil =>
    intro s _ _ _
    rw [List.map_nil, List.append_nil]
    rfl
  | cons i code ih =>
    intro s h hr hcode
    obtain ⟨hi, htgt⟩ := hcode i (List.mem_cons_self ..)
    rw [List.flatMap_cons, List.append_assoc] at hr
    -- either branch appends the rebased instruction
    have hpush : ∀ j, j = i.rebase 0 off → Runs (do
        modify (·.pushInstr j)
        readInstrs off cl code.length) (s.advance (eskbWriteInstruction i).length) ()
        (s.at ((i :: code).flatMap eskbWriteInstruction).length
          { s.mod with code := s.mod.code ++ (i :: code).map (·.rebase 0 off) }) := by
      rintro j rfl
      have hrest := s.rest_at_of_append hr { s.mod with code := s.mod.code ++ [i.rebase 0 off] }
      have hfit := h.at hr { s.mod with code := s.mod.code ++ [i.rebase 0 off] }
      have hrec := ih hfit hrest fun j hj => hcode j (List.mem_cons_of_mem _ hj)
      rw [LoadState.at_at, LoadState.at_mod, ← List.length_append] at hrec
      refine .bind (a := ()) (t := s.at (eskbWriteInstruction i).length
        { s.mod with code := s.mod.code ++ [i.rebase 0 off] }) rfl ?_
      simpa using hrec
    refine .bind (eskbReadInstruction_runs h hi hr) ?_
    by_cases ht : operandIsCodeTarget i.op = true
    · have := htgt ht
      rw [if_pos ht, if_neg (by omega)]
      exact hpush _ (by simp [EskbInstr.rebase, ht])
    · rw [if_neg ht]
      exact hpush _ (i.rebase_of_not _ _ ht).symm

/-- A C string ends at its terminator, not before. -/
lemma cString_cstr (s : CStr) : cString s.1 = s.1 := by
  rw [cString, List.takeWhile_eq_self_iff]
  intro b hb
  simp only [ne_eq, decide_eq_true_eq]
  rintro rfl
  exact s.2 hb

/-- The loader's conditions on a single function. -/
structure EskbFunctionDef.Loadable (fn : EskbFunctionDef) : Prop where
  targets : fn.TargetsOk
  name_ne : fn.name.1 ≠ []
  name_le : fn.name.1.length ≤ 255
  locals_le : fn.nLocals.toNat ≤ intMax

section sections
variable {a : Allocator} (ha : ∀ n < 2 ^ 63, a.grants n = true)
include ha

lemma readConst_runs {s : LoadState} {t : List UInt8} {c : EskbConst} (h : s.Fits)
    (hr : s.r.rest = eskbWriteConst c ++ t) :
    Runs (readConst a) s c.loaded (s.advance (eskbWriteConst c).length) := by
  have hr₁ : s.r.rest = [c.ctype] ++ ((eskbWriteConst c).tail ++ t) := hr
  have hlen : (eskbWriteConst c).length = [c.ctype].length + (eskbWriteConst c).tail.length := by
    simp [eskbWriteConst, Nat.add_comm]
  have hrest := s.rest_advance_of_append hr₁
  have hfit := h.advance hr₁
  refine .bind (eskbReadU8_runs h.valid hr₁) ?_
  rw [hlen, ← LoadState.advance_advance]
  generalize s.advance [c.ctype].length = s₁ at hrest hfit ⊢
  -- the three word-sized types differ only in the slot that is filled
  have hword : ∀ f : BitVec 64 → LoadedConst, (eskbWriteConst c).tail = eskbBufWriteWord64 c.as →
      Runs (do let w ← eskbReadWord64; pure (f w)) s₁ (f c.as)
        (s₁.advance (eskbWriteConst c).tail.length) := by
    intro f htail
    rw [htail] at hrest ⊢
    exact .bind (eskbReadWord64_runs hfit hrest) rfl
  unfold EskbConst.loaded
  by_cases hnil : c.ctype = constNil
  · have htail : (eskbWriteConst c).tail = [] := by rw [eskbWriteConst, if_pos hnil]; rfl
    rw [if_pos hnil, if_pos hnil, htail]
    rfl
  rw [if_neg hnil, if_neg hnil]
  by_cases hint : c.ctype = constInt64
  · rw [if_pos hint, if_pos hint]
    exact hword (fun w => ⟨c.ctype, w, 0, none⟩)
      (by rw [eskbWriteConst, if_neg hnil, if_pos hint]; rfl)
  rw [if_neg hint, if_neg hint]
  by_cases hf64 : c.ctype = constF64
  · rw [if_pos hf64, if_pos hf64]
    exact hword (fun w => ⟨c.ctype, 0, w, none⟩)
      (by rw [eskbWriteConst, if_neg hnil, if_neg hint, if_pos hf64]; rfl)
  rw [if_neg hf64, if_neg hf64]
  by_cases hbool : c.ctype = constBool
  · rw [if_pos hbool, if_pos hbool]
    have htail : (eskbWriteConst c).tail = [if c.b ≠ 0 then 1 else 0] := by
      rw [eskbWriteConst, if_neg hnil, if_neg hint, if_neg hf64, if_pos hbool]
      rfl
    rw [htail] at hrest ⊢
    refine .bind (eskbReadU8_runs hfit.valid hrest) ?_
    split <;> rfl
  rw [if_neg hbool, if_neg hbool]
  by_cases hstr : c.ctype = constString
  · rw [if_pos hstr, if_pos hstr]
    have htail : (eskbWriteConst c).tail = eskbBufWriteString c.str := by
      rw [eskbWriteConst, if_neg hnil, if_neg hint, if_neg hf64, if_neg hbool, if_pos hstr]
      rfl
    rw [htail] at hrest ⊢
    exact .bind (eskbReadStringAlloc_runs ha hfit hrest) rfl
  · rw [if_neg hstr, if_neg hstr]
    exact hword (fun w => ⟨c.ctype, w, 0, none⟩) (by
      rw [eskbWriteConst, if_neg hnil, if_neg hint, if_neg hf64, if_neg hbool, if_neg hstr]
      rfl)

lemma readConsts_runs {t : List UInt8} (cs : List EskbConst) :
    ∀ {s : LoadState} {done : List LoadedConst}, s.Fits → s.mod.constants = some done →
      s.r.rest = cs.flatMap eskbWriteConst ++ t →
      Runs (readConsts a cs.length) s () (s.at (cs.flatMap eskbWriteConst).length
        { s.mod with constants := some (done ++ cs.map (·.loaded)) }) := by
  induction cs with
  | nil =>
    intro s done _ hdone _
    have hmod : { s.mod with constants := some (done ++ List.map EskbConst.loaded []) } = s.mod := by
      rw [List.map_nil, List.append_nil, ← hdone]
    rw [hmod]
    rfl
  | cons c cs ih =>
    intro s done h hdone hr
    rw [List.flatMap_cons, List.append_assoc] at hr
    have hrest := s.rest_at_of_append hr { s.mod with constants := some (done ++ [c.loaded]) }
    have hfit := h.at hr { s.mod with constants := some (done ++ [c.loaded]) }
    refine .bind (readConst_runs ha h hr) (.bind (a := ()) (t := s.at
      (eskbWriteConst c).length { s.mod with constants := some (done ++ [c.loaded]) }) ?_ ?_)
    · show EStateM.Result.ok _ _ = _
      simp [LoadState.pushConst, LoadState.at, LoadState.advance, hdone]
    · have hrec := ih hfit rfl hrest
      rw [LoadState.at_at, LoadState.at_mod, ← List.length_append] at hrec
      simpa using hrec

lemma parseConstSection_runs {s : LoadState} (cs : List EskbConst) (h : s.Fits)
    (hcount : cs.length ≤ intMax) (hnone : s.mod.constants = none)
    (hr : s.r.rest = constSection cs) :
    Runs (parseConstSection a) s () (s.at (constSection cs).length
      { s.mod with constants := some (cs.map (·.loaded)) }) := by
  have hc := hcount
  simp only [intMax] at hc
  rw [constSection] at hr
  have hrest := s.rest_at_of_append hr { s.mod with constants := some [] }
  have hfit := h.at hr { s.mod with constants := some [] }
  rw [← List.append_nil (List.flatMap _ _)] at hrest
  refine .bind (eskbReadLeb_runs h hr (by omega)) ?_
  rw [if_neg (by omega)]
  refine .bind (.get _) ?_
  have hsome : ¬ (s.advance (eskbWriteLeb128 cs.length).length).mod.constants.isSome := by
    show ¬ s.mod.constants.isSome
    simp [hnone]
  rw [if_neg hsome, if_pos ⟨ha _ (by omega), ha _ (by omega)⟩]
  refine .bind (a := ()) (t := s.at (eskbWriteLeb128 cs.length).length
    { s.mod with constants := some [] }) rfl ?_
  have hloop := readConsts_runs ha cs hfit rfl hrest
  have hend := LoadState.rest_at_of_append hrest
    { s.mod with constants := some ([] ++ cs.map (·.loaded)) }
  have hfit' := hfit.at hrest { s.mod with constants := some ([] ++ cs.map (·.loaded)) }
  rw [LoadState.at_at, ← List.length_append] at hend hfit'
  rw [LoadState.at_at, ← List.length_append] at hloop
  exact .bind hloop (expectEnd_runs hfit'.valid hend)

lemma readFunctionName_runs {s : LoadState} {t : List UInt8} {name : CStr} (h : s.Fits)
    (hne : name.1 ≠ []) (hle : name.1.length ≤ 255)
    (hnew : ∀ f ∈ s.mod.functions.getD [], cString f.name ≠ cString name.1)
    (hr : s.r.rest = eskbBufWriteString name.1 ++ t) :
    Runs (readFunctionName a) s name.1 (s.advance (eskbBufWriteString name.1).length) := by
  have hlen : name.1.length ≠ 0 := fun h0 => hne (List.length_eq_zero_iff.1 h0)
  refine .bind (eskbReadStringAlloc_runs ha h hr) ?_
  rw [if_neg (by omega)]
  refine .bind (.get _) ?_
  have hany : ¬ ((s.advance (eskbBufWriteString name.1).length).mod.functions.getD []).any
      (fun f => cString f.name == cString name.1) = true := by
    show ¬ (s.mod.functions.getD []).any (fun f => cString f.name == cString name.1) = true
    simp only [List.any_eq_true, beq_iff_eq, not_exists, not_and]
    exact hnew
  rw [if_neg hany]
  rfl

/-- The module after one more function. -/
def EskbModule.addFunction (m : EskbModule) (fn : EskbFunctionDef) : EskbModule :=
  { m with
    code := m.code ++ fn.code.map (·.rebase fn.codeBase m.codeLen)
    codeLen := m.codeLen + fn.code.length
    functions := some (m.functions.getD [] ++ [fn.loaded m.codeLen]) }

lemma readFunction_runs {s : LoadState} {t : List UInt8} {fn : EskbFunctionDef} (h : s.Fits)
    (htgt : fn.TargetsOk) (hne : fn.name.1 ≠ []) (hle : fn.name.1.length ≤ 255)
    (hnew : ∀ f ∈ s.mod.functions.getD [], cString f.name ≠ cString fn.name.1)
    (hlocals : fn.nLocals.toNat ≤ intMax) (hmax : s.mod.codeLen + fn.code.length ≤ vmMaxCode)
    (hr : s.r.rest = functionBytes fn ++ t) :
    Runs (readFunction a) s () (s.at (functionBytes fn).length (s.mod.addFunction fn)) := by
  have hmax' := hmax
  have hloc' := hlocals
  simp only [vmMaxCode] at hmax'
  simp only [intMax] at hloc'
  have hlenint : fn.code.length ≤ intMax := by simp only [intMax]; omega
  simp only [functionBytes, List.append_assoc] at hr
  -- name, parameter count, local count, upvalue count, code length
  have hr₁ := s.rest_advance_of_append hr
  have hf₁ := h.advance hr
  refine .bind (readFunctionName_runs ha h hne hle hnew hr) ?_
  have hr₂ := LoadState.rest_advance_of_append hr₁
  have hf₂ := hf₁.advance hr₁
  refine .bind (eskbReadU8_runs hf₁.valid hr₁) ?_
  have hr₃ := LoadState.rest_advance_of_append hr₂
  have hf₃ := hf₂.advance hr₂
  refine .bind (eskbReadLeb_runs hf₂ hr₂ (by omega)) ?_
  rw [if_neg (by omega)]
  have hr₄ := LoadState.rest_advance_of_append hr₃
  have hf₄ := hf₃.advance hr₃
  refine .bind (eskbReadU8_runs hf₃.valid hr₃) ?_
  have hr₅ := LoadState.rest_advance_of_append hr₄
  have hf₅ := hf₄.advance hr₄
  refine .bind (eskbReadLeb_runs hf₄ hr₄ (by omega)) ?_
  rw [if_neg (by omega)]
  refine .bind (.get _) ?_
  simp only [LoadState.advance_advance] at hr₅ hf₅ ⊢
  set n := (eskbBufWriteString fn.name.1).length + 1 + (eskbWriteLeb128 fn.nLocals.toNat).length
    + 1 + (eskbWriteLeb128 fn.code.length).length with hn
  have hoff : (s.advance n).mod.codeLen = s.mod.codeLen := rfl
  rw [hoff, if_neg (by simp only [intMax]; omega), if_neg (by omega),
    if_pos ⟨ha _ (by omega), ha _ (by omega)⟩]
  set m₁ : EskbModule := { s.mod with
    functions := some (s.mod.functions.getD [] ++ [fn.loaded s.mod.codeLen]) } with hm₁
  refine .bind (a := ()) (t := s.at n m₁) rfl ?_
  -- the instruction loop
  have hcode : ∀ i ∈ fn.code.map (·.rebase fn.codeBase 0), IsInt32 i.operand ∧
      (operandIsCodeTarget i.op → 0 ≤ i.operand ∧ i.operand < (fn.code.length : ℤ)) := by
    intro i hi
    obtain ⟨j, hj, rfl⟩ := List.mem_map.1 hi
    rw [EskbInstr.rebase_op]
    exact htgt.rebase_int32 (by simp only [vmMaxCode]; omega) hj
  have hfit : (s.at n m₁).Fits := hf₅.of_reader rfl
  have hloop := readInstrs_runs s.mod.codeLen fn.code.length _ hfit hr₅ hcode
  rw [List.length_map, LoadState.at_at, List.map_map] at hloop
  refine .bind hloop ?_
  have hcomp : (fun i : EskbInstr => i.rebase 0 s.mod.codeLen)
      ∘ (fun i : EskbInstr => i.rebase fn.codeBase 0)
      = fun i => i.rebase fn.codeBase s.mod.codeLen := by
    funext i
    by_cases ht : operandIsCodeTarget i.op = true <;> simp [EskbInstr.rebase, ht]
  have htotal : n + ((fn.code.map (·.rebase fn.codeBase 0)).flatMap eskbWriteInstruction).length
      = (functionBytes fn).length := by
    simp only [functionBytes, List.length_append, List.length_singleton]
    omega
  rw [htotal, hcomp]
  rfl

lemma readFunctions_runs {t : List UInt8} (fns : List EskbFunctionDef) :
    ∀ {s : LoadState}, s.Fits → s.r.rest = fns.flatMap functionBytes ++ t →
      (∀ fn ∈ fns, fn.Loadable) → fns.Pairwise (fun f g => f.name.1 ≠ g.name.1) →
      (∀ f ∈ s.mod.functions.getD [], ∀ fn ∈ fns, cString f.name ≠ cString fn.name.1) →
      s.mod.codeLen + totalCode fns ≤ vmMaxCode →
      Runs (readFunctions a fns.length) s ()
        (s.at (fns.flatMap functionBytes).length (fns.foldl EskbModule.addFunction s.mod)) := by
  induction fns with
  | nil => exact fun _ _ _ _ _ _ => rfl
  | cons fn fns ih =>
    intro s h hr hfns hdist hnew hmax
    obtain ⟨htgt, hne, hle, hlocals⟩ := hfns fn (List.mem_cons_self ..)
    obtain ⟨hfn, hdist⟩ := List.pairwise_cons.1 hdist
    rw [totalCode, List.map_cons, List.sum_cons, ← totalCode] at hmax
    rw [List.flatMap_cons, List.append_assoc] at hr
    have hrest := s.rest_at_of_append hr (s.mod.addFunction fn)
    have hfit := h.at hr (s.mod.addFunction fn)
    have hone := readFunction_runs ha h htgt hne hle
      (fun f hf => hnew f hf fn (List.mem_cons_self ..)) hlocals (by omega) hr
    refine .bind hone ?_
    have hnew' : ∀ f ∈ (s.at (functionBytes fn).length (s.mod.addFunction fn)).mod.functions.getD [],
        ∀ g ∈ fns, cString f.name ≠ cString g.name.1 := by
      intro f hf g hg
      simp only [LoadState.at_mod, EskbModule.addFunction, Option.getD_some, List.mem_append,
        List.mem_singleton] at hf
      rcases hf with hf | rfl
      · exact hnew f hf g (List.mem_cons_of_mem _ hg)
      · rw [EskbFunctionDef.loaded, cString_cstr, cString_cstr]
        exact hfn g hg
    have hrec := ih hfit hrest (fun g hg => hfns g (List.mem_cons_of_mem _ hg)) hdist hnew'
      (by simp only [LoadState.at_mod, EskbModule.addFunction]; omega)
    rw [LoadState.at_at, LoadState.at_mod, ← List.length_append] at hrec
    rw [List.foldl_cons, List.flatMap_cons]
    exact hrec

lemma parseCodeSection_runs {s : LoadState} (fns : List EskbFunctionDef) (h : s.Fits)
    (hfns : ∀ fn ∈ fns, fn.Loadable) (hdist : fns.Pairwise (fun f g => f.name.1 ≠ g.name.1))
    (hcount : fns.length ≤ 4096) (hmax : s.mod.codeLen + totalCode fns ≤ vmMaxCode)
    (hnone : s.mod.functions = none)
    (hr : s.r.rest = eskbWriteLeb128 fns.length ++ fns.flatMap functionBytes) :
    Runs (parseCodeSection a) s ()
      (s.at (eskbWriteLeb128 fns.length ++ fns.flatMap functionBytes).length
        (fns.foldl EskbModule.addFunction { s.mod with functions := some [] })) := by
  have hrest := s.rest_at_of_append hr { s.mod with functions := some [] }
  have hfit := h.at hr { s.mod with functions := some [] }
  rw [← List.append_nil (List.flatMap _ _)] at hrest
  refine .bind (eskbReadLeb_runs h hr (by omega)) ?_
  rw [if_neg (by simp only [intMax]; omega)]
  refine .bind (.get _) ?_
  have hsome : ¬ (s.advance (eskbWriteLeb128 fns.length).length).mod.functions.isSome := by
    show ¬ s.mod.functions.isSome
    simp [hnone]
  rw [if_neg hsome, if_pos (ha _ (by omega))]
  refine .bind (a := ()) (t := s.at (eskbWriteLeb128 fns.length).length
    { s.mod with functions := some [] }) rfl ?_
  have hloop := readFunctions_runs ha fns hfit hrest hfns hdist (by simp) hmax
  have hend := LoadState.rest_at_of_append hrest
    (fns.foldl EskbModule.addFunction { s.mod with functions := some [] })
  have hfit' := hfit.at hrest
    (fns.foldl EskbModule.addFunction { s.mod with functions := some [] })
  rw [LoadState.at_at, ← List.length_append] at hend hfit' hloop
  exact .bind hloop (expectEnd_runs hfit'.valid hend)

end sections

/-- Adding the functions one by one gives the code and the function table of the whole list. -/
lemma foldl_addFunction (fns : List EskbFunctionDef) :
    ∀ {m : EskbModule} {done : List EskbFunction}, m.functions = some done →
      fns.foldl EskbModule.addFunction m = { m with
        code := m.code ++ loadedCode m.codeLen fns
        codeLen := m.codeLen + totalCode fns
        functions := some (done ++ loadedFunctions m.codeLen fns) } := by
  induction fns with
  | nil =>
    intro m done hdone
    cases m
    simp_all [loadedCode, loadedFunctions, totalCode]
  | cons fn fns ih =>
    intro m done hdone
    have hone : (m.addFunction fn).functions = some (done ++ [fn.loaded m.codeLen]) := by
      simp [EskbModule.addFunction, hdone]
    rw [List.foldl_cons, ih hone]
    simp [EskbModule.addFunction, loadedCode, loadedFunctions, totalCode, List.append_assoc,
      Nat.add_assoc]

lemma parseMetaSection_runs {s : LoadState} {src : List UInt8} (h : s.Fits)
    (hle : src.length ≤ 255) (hdebug : s.mod.hasDebug = false)
    (hr : s.r.rest = eskbBufWriteString src) :
    Runs parseMetaSection s () (s.at (eskbBufWriteString src).length
      { s.mod with hasDebug := true, sourceFile := src }) := by
  rw [← List.append_nil (eskbBufWriteString src)] at hr
  have hend := s.rest_at_of_append hr { s.mod with hasDebug := true, sourceFile := src }
  have hfit := h.at hr { s.mod with hasDebug := true, sourceFile := src }
  refine .bind (.get _) ?_
  rw [if_neg (by simp [hdebug])]
  refine .bind (a := ()) (t := s.setDebug) rfl ?_
  have hfitd : s.setDebug.Fits := h.of_reader rfl
  refine .bind (eskbReadString_runs hfitd hle hr) ?_
  exact .bind (a := ()) (t := s.at (eskbBufWriteString src).length
    { s.mod with hasDebug := true, sourceFile := src }) rfl (expectEnd_runs hfit.valid hend)

end Eskb

import Mathlib.Data.Nat.Log
import Mathlib.Algebra.Order.BigOperators.Group.List
import Eshkol.Eskb.RoundTrip

/-!
# Written files

The section table and the file header around the sections of `RoundTrip`. The writer puts no
bound on the length of the source file name, on the number of functions, on `n_locals` or on
the size of the payload; the loader has one on each. `eskbLoadMemory_written_iff` says that
a written file loads to what was written exactly when these four bounds hold.
-/

namespace Eskb

open ErrorState ByteCodec

/-! ## Sections of a file -/

/-- A section as the writer has it in memory: its id and its bytes. -/
abbrev Section := UInt8 × List UInt8

/-- The descriptor of a section. -/
def Section.desc (sec : Section) : UInt8 × ℕ := (sec.1, sec.2.length)

def sectionTable (secs : List Section) : List UInt8 :=
  secs.flatMap fun sec => sectionDesc sec.1 sec.2.length

/-- The offsets the loader computes for sections that start at `off`. -/
def layoutOf : ℕ → List Section → List (UInt8 × ℕ × ℕ)
  | _, [] => []
  | off, sec :: secs => (sec.1, off, sec.2.length) :: layoutOf (off + sec.2.length) secs

/-- The sections the writer emits. -/
def sectionsOf (consts code : List UInt8) : Option CStr → List Section
  | none => [(sectionConst, consts), (sectionCode, code)]
  | some src => [(sectionConst, consts), (sectionCode, code),
      (sectionMeta, eskbBufWriteString src.1)]

lemma payloadOf_eq (consts code : List UInt8) (src : Option CStr) :
    payloadOf consts code src = eskbWriteLeb128 (sectionsOf consts code src).length
      ++ (sectionTable (sectionsOf consts code src)
        ++ (sectionsOf consts code src).flatMap (·.2)) := by
  cases src <;> simp [payloadOf, sectionsOf, sectionTable, metaSection]

/-! ### The table -/

lemma sectionTable_cons (sec : Section) (secs : List Section) : sectionTable (sec :: secs)
    = [sec.1] ++ (eskbWriteLeb128 sec.2.length ++ sectionTable secs) := by
  simp [sectionTable, sectionDesc]

lemma length_sectionTable_cons (sec : Section) (secs : List Section) :
    (sectionTable (sec :: secs)).length
      = 1 + (eskbWriteLeb128 sec.2.length).length + (sectionTable secs).length := by
  rw [sectionTable_cons, List.length_append, List.length_append, List.length_singleton]
  omega

/-- Reading the table ends with the descriptors, all of them in the range of `uint32_t`. -/
lemma readDescs_inv {t : List UInt8} (secs : List Section) :
    ∀ {s s' : LoadState} {ds : List (UInt8 × ℕ)}, s.r.Valid →
      s.r.rest = sectionTable secs ++ t → (∀ sec ∈ secs, sec.2.length < 2 ^ 64) →
      Runs (readDescs secs.length) s ds s' →
      ds = secs.map Section.desc ∧ s' = s.advance (sectionTable secs).length ∧
        ∀ sec ∈ secs, sec.2.length ≤ uint32Max := by
  induction secs with
  | nil =>
    intro s s' ds _ _ _ hrun
    cases hrun
    exact ⟨rfl, rfl, by simp⟩
  | cons sec secs ih =>
    intro s s' ds h hr hsize hrun
    have hr₁ : s.r.rest = [sec.1] ++ (eskbWriteLeb128 sec.2.length ++ (sectionTable secs ++ t)) := by
      rw [hr, sectionTable_cons, List.append_assoc, List.append_assoc]
    have hr₂ := s.rest_advance_of_append hr₁
    have h₁ := h.advance hr₁
    obtain ⟨sid, s₁, hid, hrun⟩ := hrun.of_bind
    obtain ⟨rfl, rfl⟩ := hid.unique (eskbReadU8_runs h hr₁)
    obtain ⟨size, s₂, hsz, hrun⟩ := hrun.of_bind
    obtain ⟨rfl, rfl⟩ := eskbReadLeb_inv h₁ hr₂ (hsize sec (List.mem_cons_self ..)) hsz
    split at hrun
    · cases hrun
    · rename_i hle
      obtain ⟨ds', s₃, hds, hrun⟩ := hrun.of_bind
      obtain ⟨rfl, rfl, hall⟩ := ih (h₁.advance hr₂) (LoadState.rest_advance_of_append hr₂)
        (fun x hx => hsize x (List.mem_cons_of_mem _ hx)) hds
      obtain ⟨rfl, rfl⟩ := hrun.of_pure
      refine ⟨rfl, ?_, ?_⟩
      · rw [length_sectionTable_cons, ← LoadState.advance_advance, ← LoadState.advance_advance]
        rfl
      · intro x hx
        rcases List.mem_cons.1 hx with rfl | hx
        · omega
        · exact hall x hx

lemma readDescs_runs {t : List UInt8} (secs : List Section) :
    ∀ {s : LoadState}, s.Fits → s.r.rest = sectionTable secs ++ t →
      (∀ sec ∈ secs, sec.2.length ≤ uint32Max) →
      Runs (readDescs secs.length) s (secs.map Section.desc)
        (s.advance (sectionTable secs).length) := by
  induction secs with
  | nil => exact fun _ _ _ => rfl
  | cons sec secs ih =>
    intro s h hr hsize
    have hle := hsize sec (List.mem_cons_self ..)
    have hr₁ : s.r.rest = [sec.1] ++ (eskbWriteLeb128 sec.2.length ++ (sectionTable secs ++ t)) := by
      rw [hr, sectionTable_cons, List.append_assoc, List.append_assoc]
    have hr₂ := s.rest_advance_of_append hr₁
    have h₁ := h.advance hr₁
    refine .bind (eskbReadU8_runs h.valid hr₁) ?_
    refine .bind (eskbReadLeb_runs h₁ hr₂ (by simp only [uint32Max] at hle; omega)) ?_
    rw [if_neg (by omega)]
    have hrec := ih (h₁.advance hr₂) (LoadState.rest_advance_of_append hr₂)
      fun x hx => hsize x (List.mem_cons_of_mem _ hx)
    refine .bind hrec ?_
    rw [length_sectionTable_cons, ← LoadState.advance_advance, ← LoadState.advance_advance]
    rfl

/-- Sections that fill the payload are laid out one behind the other. -/
lemma layoutSections_runs (L : ℕ) (secs : List Section) : ∀ (off : ℕ) {s : LoadState},
    off + (secs.flatMap (·.2)).length = L →
    Runs (layoutSections L off (secs.map Section.desc)) s (layoutOf off secs) s := by
  induction secs with
  | nil =>
    intro off s h
    rw [List.map_nil, layoutSections, if_neg (by simpa using h)]
    rfl
  | cons sec secs ih =>
    intro off s h
    rw [List.flatMap_cons, List.length_append] at h
    rw [List.map_cons, Section.desc, layoutSections, if_neg (by omega)]
    exact .bind (ih (off + sec.2.length) (by omega)) rfl

/-! ### The section loop -/

/-- Parsing the section `sec` of the payload, then the others. -/
lemma parseSections_cons {a : Allocator} {s : LoadState} (sec : Section) (m' : EskbModule)
    {off : ℕ} {rest : List (UInt8 × ℕ × ℕ)} {pre post : List UInt8} {m : EskbModule}
    (hmem : s.r.mem = pre ++ (sec.2 ++ post)) (hlen : s.r.mem.length ≤ intMax)
    (hoff : off = pre.length)
    (hsec : ∀ s₁ : LoadState, s₁.Fits → s₁.mod = s.mod → s₁.r.rest = sec.2 →
      Runs (parseSection a sec.1) s₁ () (s₁.at sec.2.length m'))
    (hrest : ∀ s₂ : LoadState, s₂.r.mem = s.r.mem → s₂.mod = m' →
      ∃ s', Runs (parseSections a rest) s₂ () s' ∧ s'.mod = m) :
    ∃ s', Runs (parseSections a ((sec.1, off, sec.2.length) :: rest)) s () s' ∧ s'.mod = m := by
  have hbound := hlen
  rw [hmem, List.length_append, List.length_append] at hbound
  have hfit : (s.openSection off sec.2.length).Fits := by
    refine ⟨⟨?_, Nat.zero_le _⟩, ?_⟩
    · simp only [LoadState.openSection, hmem, hoff, List.length_append]
      omega
    · simp only [LoadState.openSection]
      omega
  have hwindow : (s.openSection off sec.2.length).r.rest = sec.2 := by
    simp [LoadState.openSection, EskbReader.rest, hmem, hoff]
  have hrun := hsec _ hfit rfl hwindow
  obtain ⟨s', hs', hmod⟩ := hrest
    (((s.openSection off sec.2.length).at sec.2.length m').closeSection sec.1 off sec.2.length)
    rfl rfl
  exact ⟨s', .bind (a := ()) rfl (.bind hrun (.bind (a := ()) rfl hs')), hmod⟩

/-! ## The size of a file -/

/-- The bytes a number takes. -/
def lebSize (v : ℕ) : ℕ := Nat.log 128 v + 1

lemma length_writeLebGroups {fuel v : ℕ} (hv : v < 2 ^ (7 * (fuel + 1))) :
    (writeLebGroups (fuel + 1) v).length = lebSize v := by
  induction fuel generalizing v with
  | zero =>
    have hz : v >>> 7 = 0 := by
      rw [Nat.shiftRight_eq_div_pow]
      omega
    rw [writeLebGroups, if_neg (by simp [hz]), lebSize, Nat.log_of_lt (by omega)]
    rfl
  | succ fuel ih =>
    have hshift : v >>> 7 = v / 128 := by rw [Nat.shiftRight_eq_div_pow]
    rw [writeLebGroups, hshift]
    split
    · rename_i hmore
      have hv' : v / 128 < 2 ^ (7 * (fuel + 1)) := by
        rw [Nat.div_lt_iff_lt_mul (by norm_num)]
        calc v < 2 ^ (7 * (fuel + 1 + 1)) := hv
          _ = 2 ^ (7 * (fuel + 1)) * 128 := by rw [Nat.mul_succ, pow_add]; norm_num
      rw [List.length_cons, ih hv', lebSize, lebSize,
        Nat.log_of_one_lt_of_le (by norm_num : 1 < 128) (by omega : 128 ≤ v)]
    · rw [lebSize, Nat.log_of_lt (by omega)]
      rfl

lemma length_eskbWriteLeb128 {v : ℕ} (hv : v < 2 ^ 64) :
    (eskbWriteLeb128 v).length = lebSize v :=
  length_writeLebGroups (by omega)

def EskbConst.size (c : EskbConst) : ℕ :=
  1 + if c.ctype = constNil then 0
    else if c.ctype = constBool then 1
    else if c.ctype = constString then lebSize c.str.length + c.str.length
    else 8

def EskbInstr.size (i : EskbInstr) : ℕ := 1 + lebSize (zigzag i.operand)

def EskbFunctionDef.size (fn : EskbFunctionDef) : ℕ :=
  (lebSize fn.name.1.length + fn.name.1.length) + 1 + lebSize fn.nLocals.toNat + 1
    + lebSize fn.code.length + (fn.code.map fun i => (i.rebase fn.codeBase 0).size).sum

def constsSize (constants : List EskbConst) : ℕ :=
  lebSize constants.length + (constants.map (·.size)).sum

def functionsSize (functions : List EskbFunctionDef) : ℕ :=
  lebSize functions.length + (functions.map (·.size)).sum

/-- A section with its descriptor. -/
def sectionSize (size : ℕ) : ℕ := 1 + lebSize size + size

/-- The bytes behind the header. -/
def payloadSize (constants : List EskbConst) (functions : List EskbFunctionDef)
    (sourceFile : Option CStr) : ℕ :=
  1 + sectionSize (constsSize constants) + sectionSize (functionsSize functions)
    + match sourceFile with
      | none => 0
      | some s => sectionSize (lebSize s.1.length + s.1.length)

lemma length_eskbWriteConst (c : EskbConst) : (eskbWriteConst c).length = c.size := by
  have hstr := c.str_le
  have hword : (eskbBufWriteWord64 c.as).length = 8 := length_toLE _ _
  have hne : constInt64 ≠ constBool ∧ constInt64 ≠ constString ∧ constF64 ≠ constBool ∧
    constF64 ≠ constString := by decide
  unfold eskbWriteConst EskbConst.size
  rw [List.length_cons, Nat.add_comm]
  congr 1
  split_ifs with h1 h2 h3 h4 h5 h6 h7 <;>
    simp_all [eskbBufWriteString, length_eskbWriteLeb128 (lt_of_le_of_lt hstr (by norm_num))]

lemma EskbConst.size_le (c : EskbConst) : c.size ≤ 267 := by
  have hstr := c.str_le
  have hleb : lebSize c.str.length ≤ 10 := by
    rw [← length_eskbWriteLeb128 (by omega)]
    exact eskbWriteLeb128_length_le _
  unfold EskbConst.size
  split_ifs <;> omega

lemma lebSize_le {v : ℕ} (hv : v < 2 ^ 64) : lebSize v ≤ 10 := by
  rw [← length_eskbWriteLeb128 hv]
  exact eskbWriteLeb128_length_le _

lemma EskbInstr.size_le {i : EskbInstr} (h : IsInt32 i.operand) : i.size ≤ 11 := by
  have hz := zigzag_le h
  simp only [uint32Max] at hz
  have := lebSize_le (v := zigzag i.operand) (by omega)
  rw [EskbInstr.size]
  omega

lemma length_eskbWriteInstruction {i : EskbInstr} (h : IsInt32 i.operand) :
    (eskbWriteInstruction i).length = i.size := by
  have hz := zigzag_le h
  simp only [uint32Max] at hz
  rw [eskbWriteInstruction, List.length_cons, length_eskbWriteLeb128 (by omega), EskbInstr.size,
    Nat.add_comm]

lemma sum_map_le {α : Type} {f : α → ℕ} {k : ℕ} {l : List α} (h : ∀ x ∈ l, f x ≤ k) :
    (l.map f).sum ≤ k * l.length := by
  have := List.sum_le_card_nsmul (l.map f) k (by simpa using h)
  simpa [Nat.mul_comm] using this

lemma length_flatMap_eq {α : Type} {f : α → List UInt8} {g : α → ℕ} {l : List α}
    (h : ∀ x ∈ l, (f x).length = g x) : (l.flatMap f).length = (l.map g).sum := by
  rw [List.length_flatMap, List.map_congr_left h]

lemma length_constSection {cs : List EskbConst} (h : cs.length ≤ intMax) :
    (constSection cs).length = constsSize cs := by
  simp only [intMax] at h
  rw [constSection, List.length_append, length_eskbWriteLeb128 (by omega), constsSize,
    length_flatMap_eq fun c _ => length_eskbWriteConst c]

lemma constsSize_lt {cs : List EskbConst} (h : cs.length ≤ intMax) : constsSize cs < 2 ^ 64 := by
  simp only [intMax] at h
  have hsum : (cs.map (·.size)).sum ≤ 267 * cs.length := sum_map_le fun c _ => c.size_le
  have hleb := lebSize_le (v := cs.length) (by omega)
  rw [constsSize]
  omega

section functions
variable {fn : EskbFunctionDef} (htgt : fn.TargetsOk) (hcode : fn.code.length ≤ vmMaxCode)
  (hname : fn.name.1.length ≤ 255)
include htgt hcode hname

lemma length_functionBytes : (functionBytes fn).length = fn.size := by
  have hloc := fn.nLocals.toNat_lt
  simp only [vmMaxCode] at hcode
  have hbody : ((fn.code.map (·.rebase fn.codeBase 0)).flatMap eskbWriteInstruction).length
      = (fn.code.map fun i => (i.rebase fn.codeBase 0).size).sum := by
    rw [List.flatMap_map]
    exact length_flatMap_eq fun i hi =>
      length_eskbWriteInstruction (htgt.rebase_int32 hcode hi).1
  simp only [functionBytes, eskbBufWriteString, List.length_append, List.length_singleton]
  rw [hbody, length_eskbWriteLeb128 (by omega), length_eskbWriteLeb128 (by omega),
    length_eskbWriteLeb128 (by omega), EskbFunctionDef.size]
  omega

lemma EskbFunctionDef.size_le : fn.size ≤ 287 + 11 * fn.code.length := by
  have hloc := fn.nLocals.toNat_lt
  have h₁ := lebSize_le (v := fn.name.1.length) (by omega)
  have h₂ := lebSize_le (v := fn.nLocals.toNat) (by omega)
  have h₃ := lebSize_le (v := fn.code.length) (by simp only [vmMaxCode] at hcode; omega)
  have hbody : (fn.code.map fun i => (i.rebase fn.codeBase 0).size).sum ≤ 11 * fn.code.length :=
    sum_map_le fun i hi => EskbInstr.size_le (htgt.rebase_int32 hcode hi).1
  rw [EskbFunctionDef.size]
  omega

end functions

lemma le_intMax_of_castInt_pos {n : ℕ} (h : 0 < castInt n) (hn : n < 2 ^ 32) : n ≤ intMax := by
  rw [castInt, BitVec.toInt_eq_toNat_cond, BitVec.toNat_ofNat, Nat.mod_eq_of_lt hn] at h
  simp only [intMax]
  split at h <;> omega

/-! ## What was written -/

/-- The lists of functions the writer is meant for. -/
structure FunctionsOk (fns : List EskbFunctionDef) : Prop where
  names_distinct : fns.Pairwise fun f g => f.name.1 ≠ g.name.1
  targets : ∀ fn ∈ fns, fn.TargetsOk
  code_le : totalCode fns ≤ vmMaxCode
  count_le : fns.length ≤ intMax

/-- The CODE section of such functions. -/
def functionsBytes (fns : List EskbFunctionDef) : List UInt8 :=
  eskbWriteLeb128 fns.length ++ fns.flatMap functionBytes

lemma mapM_eskbWriteFunction {fns : List EskbFunctionDef} {bodies : List (List UInt8)}
    (htgt : ∀ fn ∈ fns, fn.TargetsOk) (h : fns.mapM eskbWriteFunction = some bodies) :
    bodies = fns.map functionBytes ∧ ∀ fn ∈ fns, fn.name.1 ≠ [] ∧ fn.name.1.length ≤ 255 := by
  induction fns generalizing bodies with
  | nil =>
    cases h
    exact ⟨rfl, by simp⟩
  | cons fn fns ih =>
    rw [List.mapM_cons] at h
    simp only [Option.bind_eq_bind, Option.bind_eq_some_iff] at h
    obtain ⟨b, hb, bs, hbs, hsome⟩ := h
    cases hsome
    obtain ⟨rfl, hne, hle, _⟩ := eskbWriteFunction_eq (htgt fn (List.mem_cons_self ..)) hb
    obtain ⟨rfl, hall⟩ := ih (fun g hg => htgt g (List.mem_cons_of_mem _ hg)) hbs
    refine ⟨rfl, fun g hg => ?_⟩
    rcases List.mem_cons.1 hg with rfl | hg
    · exact ⟨hne, hle⟩
    · exact hall g hg

/-- What a successful write has put down. -/
lemma eskbWriteFileWithFunctions_eq {constants : List EskbConst} {fns : List EskbFunctionDef}
    {src : Option CStr} {bytes : List UInt8} (htgt : ∀ fn ∈ fns, fn.TargetsOk)
    (h : eskbWriteFileWithFunctions constants fns src = some bytes) :
    (bytes = headerOf (payloadOf (constSection constants) (functionsBytes fns) src)
      ++ payloadOf (constSection constants) (functionsBytes fns) src) ∧
      ∀ fn ∈ fns, fn.name.1 ≠ [] ∧ fn.name.1.length ≤ 255 := by
  unfold eskbWriteFileWithFunctions codeSection at h
  split at h
  · cases h
  · simp only [Option.bind_eq_bind, Option.bind_eq_some_iff, Option.some.injEq] at h
    obtain ⟨code, ⟨bodies, hbodies, rfl⟩, rfl⟩ := h
    obtain ⟨rfl, hnames⟩ := mapM_eskbWriteFunction htgt hbodies
    refine ⟨?_, hnames⟩
    rw [functionsBytes, List.flatMap_def]

section sizes
variable {fns : List EskbFunctionDef} (hok : FunctionsOk fns)
  (hnames : ∀ fn ∈ fns, fn.name.1 ≠ [] ∧ fn.name.1.length ≤ 255)
include hok

lemma FunctionsOk.code_length_le {fn : EskbFunctionDef} (hfn : fn ∈ fns) :
    fn.code.length ≤ vmMaxCode := by
  have hmem : fn.code.length ∈ fns.map (·.code.length) := List.mem_map.2 ⟨fn, hfn, rfl⟩
  exact le_trans (List.single_le_sum (fun _ _ => Nat.zero_le _) _ hmem) hok.code_le

include hnames

lemma length_functionsBytes : (functionsBytes fns).length = functionsSize fns := by
  have hcount := hok.count_le
  simp only [intMax] at hcount
  rw [functionsBytes, List.length_append, length_eskbWriteLeb128 (by omega), functionsSize]
  rw [length_flatMap_eq fun fn hfn =>
    length_functionBytes (hok.targets fn hfn) (hok.code_length_le hfn) (hnames fn hfn).2]

lemma functionsSize_le : functionsSize fns ≤ 10 + 287 * fns.length + 11 * vmMaxCode := by
  have hcount := hok.count_le
  simp only [intMax] at hcount
  have hleb := lebSize_le (v := fns.length) (by omega)
  have hcode := hok.code_le
  have hsum : (fns.map (·.size)).sum ≤ 287 * fns.length + 11 * totalCode fns := by
    have hle : ∀ fn ∈ fns, fn.size ≤ 287 + 11 * fn.code.length := fun fn hfn =>
      EskbFunctionDef.size_le (hok.targets fn hfn) (hok.code_length_le hfn) (hnames fn hfn).2
    have hmap := List.sum_le_sum hle
    have hsplit : (fns.map fun fn => 287 + 11 * fn.code.length).sum
        = 287 * fns.length + 11 * totalCode fns := by
      clear hle hmap hleb hcode hcount hok hnames
      induction fns with
      | nil => rfl
      | cons fn fns ih =>
        rw [List.map_cons, List.sum_cons, ih, totalCode, totalCode, List.map_cons, List.sum_cons,
          List.length_cons]
        ring
    exact hsplit ▸ hmap
  rw [functionsSize]
  omega

end sizes

/-! ## The header -/

/-- Behind a header of its own making, a payload is parsed. -/
lemma eskbLoadMemory_headerOf (a : Allocator) (p : List UInt8) :
    eskbLoadMemory a (headerOf p ++ p) =
      match eskbParsePayload a (LoadState.init p) with
      | .ok _ s => .returned 0 s.mod s.visited
      | .error .reject s => .returned (-1) (eskbModuleFree s.mod) s.visited
      | .error .outOfBounds _ => .outOfBounds := by
  have hlen : (headerOf p).length = headerSize := by simp [headerOf, headerSize]
  have hcrc : (eskbCrc32 p).toNat < 256 ^ 4 := by
    have := (eskbCrc32 p).toNat_lt
    norm_num at this ⊢
    exact this
  have hmagic : ofLE ((headerOf p ++ p).take 4) = eskbMagic := by
    simp only [headerOf, List.append_assoc]
    rw [List.take_left' (length_toLE _ _), ofLE_toLE_of_lt (by decide)]
  have hversion : ofLE (((headerOf p ++ p).drop 4).take 4) = eskbVersion := by
    simp only [headerOf, List.append_assoc]
    rw [List.drop_left' (length_toLE _ _), List.take_left' (length_toLE _ _),
      ofLE_toLE_of_lt (by decide)]
  have hsum : ofLE (((headerOf p ++ p).drop 12).take 4) = (eskbCrc32 p).toNat := by
    have hassoc : headerOf p ++ p = (toLE 4 eskbMagic ++ toLE 4 eskbVersion
        ++ toLE 4 flagLittleEndian) ++ (toLE 4 (eskbCrc32 p).toNat ++ p) := by
      simp [headerOf, List.append_assoc]
    rw [hassoc, List.drop_left' (by simp), List.take_left' (length_toLE _ _),
      ofLE_toLE_of_lt hcrc]
  have hpayload : (headerOf p ++ p).drop headerSize = p := List.drop_left' hlen
  unfold eskbLoadMemory
  rw [if_neg (by rw [List.length_append]; omega), if_neg (not_not.2 hmagic),
    if_neg (not_not.2 hversion)]
  simp only [hpayload]
  exact if_neg (not_not.2 hsum.symm)

/-! ## The loader on a written file -/

/-- What a load says about its payload: the first number is read through an `int` cast of the
payload's length, and so is the count of a CONST section. -/
lemma eskbParsePayload_inv {a : Allocator} {secs secs' : List Section} {cs : List UInt8}
    (hcons : secs = (sectionConst, cs) :: secs') (hcount : secs.length ≤ 3)
    (hsizes : ∀ sec ∈ secs, sec.2.length < 2 ^ 64) {s' : LoadState}
    (hrun : Runs (eskbParsePayload a) (LoadState.init (eskbWriteLeb128 secs.length
      ++ (sectionTable secs ++ secs.flatMap (·.2)))) () s') :
    0 < castInt (eskbWriteLeb128 secs.length
      ++ (sectionTable secs ++ secs.flatMap (·.2))).length ∧
      0 < castInt cs.length ∧ cs.length ≤ uint32Max := by
  generalize hp : eskbWriteLeb128 secs.length ++ (sectionTable secs ++ secs.flatMap (·.2)) = p
    at hrun ⊢
  have hvalid : (LoadState.init p).r.Valid := ⟨by simp [LoadState.init], Nat.zero_le _⟩
  have hr : (LoadState.init p).r.rest
      = eskbWriteLeb128 secs.length ++ (sectionTable secs ++ secs.flatMap (·.2)) := by
    simp [LoadState.init, EskbReader.rest, hp]
  have htotal := congrArg List.length hp
  simp only [List.length_append] at htotal
  obtain ⟨n, s₁, hn, hrun⟩ := hrun.of_bind
  refine ⟨eskbReadLeb_castInt_pos hn, ?_⟩
  obtain ⟨rfl, rfl⟩ := eskbReadLeb_inv hvalid hr (by omega) hn
  rw [if_neg (by omega)] at hrun
  obtain ⟨ds, s₂, hds, hrun⟩ := hrun.of_bind
  obtain ⟨rfl, rfl, hall⟩ := readDescs_inv secs (hvalid.advance hr)
    (LoadState.rest_advance_of_append hr) hsizes hds
  refine ⟨?_, hall (sectionConst, cs) (by rw [hcons]; exact List.mem_cons_self ..)⟩
  obtain ⟨_, _, hget, hrun⟩ := hrun.of_bind
  cases hget
  obtain ⟨lay, s₃, hlay, hrun⟩ := hrun.of_bind
  obtain ⟨rfl, rfl⟩ := hlay.unique (layoutSections_runs _ secs _ (by
    simp only [LoadState.advance, LoadState.init]
    omega))
  rw [hcons, layoutOf] at hrun
  obtain ⟨_, _, hopen, hrun⟩ := hrun.of_bind
  cases hopen
  obtain ⟨_, _, hsec, _⟩ := hrun.of_bind
  obtain ⟨_, _, hleb, _⟩ := hsec.of_bind
  exact eskbReadLeb_castInt_pos hleb

/-- The loader's limits that the writer does not check. -/
structure LoaderLimits (constants : List EskbConst) (functions : List EskbFunctionDef)
    (sourceFile : Option CStr) : Prop where
  source_le : ∀ s, sourceFile = some s → s.1.length ≤ 255
  functions_le : functions.length ≤ 4096
  locals_le : ∀ fn ∈ functions, fn.nLocals.toNat ≤ intMax
  size_le : payloadSize constants functions sourceFile ≤ intMax

section written
variable {a : Allocator} (ha : ∀ n < 2 ^ 63, a.grants n = true) {constants : List EskbConst}
  {functions : List EskbFunctionDef} {src : Option CStr} (hconsts : constants.length ≤ intMax)
  (hok : FunctionsOk functions)
  (hnames : ∀ fn ∈ functions, fn.name.1 ≠ [] ∧ fn.name.1.length ≤ 255)

include hconsts hok hnames in
lemma length_payloadOf (hsrc : ∀ s, src = some s → s.1.length ≤ 255) :
    (payloadOf (constSection constants) (functionsBytes functions) src).length
      = payloadSize constants functions src := by
  have hc := constsSize_lt hconsts
  have hf := functionsSize_le hok hnames
  have hcount := hok.count_le
  simp only [intMax] at hcount
  simp only [vmMaxCode] at hf
  have hlen₂ : (eskbWriteLeb128 2).length = 1 := by decide
  have hlen₃ : (eskbWriteLeb128 3).length = 1 := by decide
  cases src with
  | none =>
    simp only [payloadOf_eq, sectionsOf, sectionTable_cons, List.length_append,
      List.flatMap_cons, List.length_cons, List.length_nil, length_constSection hconsts,
      length_functionsBytes hok hnames, length_eskbWriteLeb128 hc,
      length_eskbWriteLeb128 (show functionsSize functions < 2 ^ 64 by omega), payloadSize,
      sectionSize]
    simp [sectionTable, hlen₂]
    omega
  | some s =>
    have hs := hsrc s rfl
    have hleb := lebSize_le (v := s.1.length) (by omega)
    simp only [payloadOf_eq, sectionsOf, sectionTable_cons, List.length_append,
      List.flatMap_cons, List.length_cons, List.length_nil, length_constSection hconsts,
      length_functionsBytes hok hnames, length_eskbWriteLeb128 hc, eskbBufWriteString,
      length_eskbWriteLeb128 (show functionsSize functions < 2 ^ 64 by omega),
      length_eskbWriteLeb128 (show s.1.length < 2 ^ 64 by omega),
      length_eskbWriteLeb128 (show lebSize s.1.length + s.1.length < 2 ^ 64 by omega),
      payloadSize, sectionSize]
    simp [sectionTable, hlen₃]
    omega

include ha hconsts hok hnames

/-- The section loop over the writer's sections. -/
lemma parseSections_written (hlim : LoaderLimits constants functions src) {s : LoadState}
    {pre : List UInt8} (hmem : s.r.mem = pre ++ (sectionsOf (constSection constants)
      (functionsBytes functions) src).flatMap (·.2)) (hlen : s.r.mem.length ≤ intMax)
    (hzero : s.mod = EskbModule.zero) :
    ∃ s', Runs (parseSections a (layoutOf pre.length
      (sectionsOf (constSection constants) (functionsBytes functions) src))) s () s' ∧
      s'.mod = expectedModule constants functions src := by
  have hloadable : ∀ fn ∈ functions, fn.Loadable := fun fn hfn =>
    ⟨hok.targets fn hfn, (hnames fn hfn).1, (hnames fn hfn).2, hlim.locals_le fn hfn⟩
  -- the module after the CONST section and after the CODE section
  set m₁ : EskbModule := { EskbModule.zero with constants := some (constants.map (·.loaded)) }
  set m₂ : EskbModule := { m₁ with
    code := loadedCode 0 functions
    codeLen := totalCode functions
    functions := some (loadedFunctions 0 functions) }
  have hconst : ∀ s₁ : LoadState, s₁.Fits → s₁.mod = EskbModule.zero →
      s₁.r.rest = constSection constants →
      Runs (parseSection a sectionConst) s₁ () (s₁.at (constSection constants).length m₁) := by
    intro s₁ hfit hmod hr
    have hrun := parseConstSection_runs ha constants hfit hconsts (by rw [hmod]; rfl) hr
    rw [hmod] at hrun
    exact hrun
  have hcode : ∀ s₁ : LoadState, s₁.Fits → s₁.mod = m₁ → s₁.r.rest = functionsBytes functions →
      Runs (parseSection a sectionCode) s₁ () (s₁.at (functionsBytes functions).length m₂) := by
    intro s₁ hfit hmod hr
    have hmax : s₁.mod.codeLen + totalCode functions ≤ vmMaxCode := by
      rw [hmod, show m₁.codeLen = 0 from rfl, Nat.zero_add]
      exact hok.code_le
    have hrun := parseCodeSection_runs ha functions hfit hloadable hok.names_distinct
      hlim.functions_le hmax (by rw [hmod]; rfl) hr
    have hfold : functions.foldl EskbModule.addFunction { s₁.mod with functions := some [] } = m₂ := by
      rw [foldl_addFunction functions rfl, hmod]
      simp [m₁, m₂, EskbModule.zero]
    rw [hfold] at hrun
    exact hrun
  cases src with
  | none =>
    simp only [sectionsOf, List.flatMap_cons, List.flatMap_nil] at hmem
    refine parseSections_cons (sectionConst, constSection constants) m₁ hmem hlen rfl
      (fun s₁ hfit hmod hr => hconst s₁ hfit (hmod.trans hzero) hr) fun s₂ hmem₂ hmod₂ => ?_
    rw [← List.append_assoc] at hmem
    refine parseSections_cons (sectionCode, functionsBytes functions) m₂ (hmem₂.trans hmem)
      (by rw [hmem₂]; exact hlen) List.length_append.symm
      (fun s₁ hfit hmod hr => hcode s₁ hfit (hmod.trans hmod₂) hr) fun s₃ _ hmod₃ => ?_
    exact ⟨s₃, rfl, hmod₃⟩
  | some name =>
    simp only [sectionsOf, List.flatMap_cons, List.flatMap_nil] at hmem
    refine parseSections_cons (sectionConst, constSection constants) m₁ hmem hlen rfl
      (fun s₁ hfit hmod hr => hconst s₁ hfit (hmod.trans hzero) hr) fun s₂ hmem₂ hmod₂ => ?_
    rw [← List.append_assoc] at hmem
    refine parseSections_cons (sectionCode, functionsBytes functions) m₂ (hmem₂.trans hmem)
      (by rw [hmem₂]; exact hlen) List.length_append.symm
      (fun s₁ hfit hmod hr => hcode s₁ hfit (hmod.trans hmod₂) hr) fun s₃ hmem₃ hmod₃ => ?_
    rw [← List.append_assoc] at hmem
    refine parseSections_cons (sectionMeta, eskbBufWriteString name.1)
      { m₂ with hasDebug := true, sourceFile := name.1 }
      ((hmem₃.trans hmem₂).trans hmem)
      (by rw [hmem₃, hmem₂]; exact hlen) (by simp only [List.length_append])
      (fun s₁ hfit hmod hr => ?_) fun s₄ _ hmod₄ => ?_
    · have hrun := parseMetaSection_runs hfit (hlim.source_le name rfl)
        (by rw [hmod, hmod₃]; rfl) hr
      rw [hmod, hmod₃] at hrun
      exact hrun
    · exact ⟨s₄, rfl, hmod₄⟩

/-- Inside the limits, the payload loads. -/
lemma eskbParsePayload_written (hlim : LoaderLimits constants functions src) :
    ∃ s', Runs (eskbParsePayload a) (LoadState.init (payloadOf (constSection constants)
      (functionsBytes functions) src)) () s' ∧ s'.mod = expectedModule constants functions src := by
  have hlen := hlim.size_le
  rw [← length_payloadOf hconsts hok hnames hlim.source_le] at hlen
  set p := payloadOf (constSection constants) (functionsBytes functions) src with hp
  set secs := sectionsOf (constSection constants) (functionsBytes functions) src with hsecs
  rw [payloadOf_eq, ← hsecs] at hp
  have hcount : secs.length ≤ 3 := by
    rw [hsecs]
    cases src <;> simp [sectionsOf]
  have hfit : (LoadState.init p).Fits := ⟨⟨by simp [LoadState.init], Nat.zero_le _⟩, hlen⟩
  have hr : (LoadState.init p).r.rest
      = eskbWriteLeb128 secs.length ++ (sectionTable secs ++ secs.flatMap (·.2)) := by
    simp [LoadState.init, EskbReader.rest, hp]
  have hr₁ := LoadState.rest_advance_of_append hr
  have hfit₁ := hfit.advance hr
  have hsizes : ∀ sec ∈ secs, sec.2.length ≤ uint32Max := by
    intro sec hsec
    have hmem : sec.2.length ≤ (secs.flatMap (·.2)).length := by
      rw [List.length_flatMap]
      exact List.single_le_sum (fun _ _ => Nat.zero_le _) _
        (List.mem_map.2 ⟨sec, hsec, rfl⟩)
    have htotal := congrArg List.length hp
    simp only [List.length_append] at htotal
    simp only [uint32Max]
    simp only [intMax] at hlen
    omega
  have hmem : (LoadState.init p).r.mem
      = (eskbWriteLeb128 secs.length ++ sectionTable secs) ++ secs.flatMap (·.2) := by
    rw [List.append_assoc]
    exact hp
  obtain ⟨s', hs', hmod⟩ := parseSections_written ha hconsts hok hnames hlim
    (s := ((LoadState.init p).advance (eskbWriteLeb128 secs.length).length).advance
      (sectionTable secs).length) hmem hlen rfl
  refine ⟨s', ?_, hmod⟩
  refine .bind (eskbReadLeb_runs hfit hr (by omega)) ?_
  rw [if_neg (by omega)]
  refine .bind (readDescs_runs secs hfit₁ hr₁ hsizes) ?_
  refine .bind (.get _) ?_
  refine .bind (layoutSections_runs _ secs _ ?_) ?_
  · have htotal := congrArg List.length hp
    simp only [List.length_append] at htotal
    simp only [LoadState.advance, LoadState.init]
    omega
  · rw [List.length_append] at hs'
    simpa [LoadState.advance, LoadState.init] using hs'

omit ha in
/-- A payload that loads is one the loader's `int` casts can see: beside the CONST section it
is small. -/
lemma payloadSize_le_of_runs (hsrc : ∀ s, src = some s → s.1.length ≤ 255)
    (hfns : functions.length ≤ 4096) {s' : LoadState}
    (hrun : Runs (eskbParsePayload a) (LoadState.init (payloadOf (constSection constants)
      (functionsBytes functions) src)) () s') : payloadSize constants functions src ≤ intMax := by
  have hlen := length_payloadOf hconsts hok hnames hsrc
  have hc := constsSize_lt hconsts
  have hf := functionsSize_le hok hnames
  simp only [vmMaxCode] at hf
  have h₁ := lebSize_le (v := constsSize constants) (by omega)
  have h₂ := lebSize_le (v := functionsSize functions) (by omega)
  obtain ⟨secs, hcons⟩ : ∃ secs, sectionsOf (constSection constants) (functionsBytes functions) src
      = (sectionConst, constSection constants) :: secs := by
    cases src <;> exact ⟨_, rfl⟩
  have hcount : (sectionsOf (constSection constants) (functionsBytes functions) src).length ≤ 3 := by
    cases src <;> simp [sectionsOf]
  have hsizes : ∀ sec ∈ sectionsOf (constSection constants) (functionsBytes functions) src,
      sec.2.length < 2 ^ 64 := by
    rw [← length_constSection hconsts] at hc
    rw [← length_functionsBytes hok hnames] at hf
    cases src with
    | none =>
      simp only [sectionsOf, List.mem_cons, List.not_mem_nil, or_false]
      rintro sec (rfl | rfl) <;> simp only <;> omega
    | some name =>
      have hn := hsrc name rfl
      have hleb := eskbWriteLeb128_length_le name.1.length
      simp only [sectionsOf, List.mem_cons, List.not_mem_nil, or_false]
      rintro sec (rfl | rfl | rfl) <;> simp only [eskbBufWriteString, List.length_append] <;> omega
  obtain ⟨hcast, hconst, hcle⟩ := eskbParsePayload_inv hcons hcount hsizes
    (by rw [← payloadOf_eq]; exact hrun)
  rw [length_constSection hconsts] at hconst hcle
  rw [← payloadOf_eq, hlen] at hcast
  simp only [uint32Max] at hcle
  have hcle' := le_intMax_of_castInt_pos hconst (by omega)
  refine le_intMax_of_castInt_pos hcast ?_
  simp only [intMax] at hcle'
  cases src with
  | none =>
    simp only [payloadSize, sectionSize]
    omega
  | some name =>
    have hn := hsrc name rfl
    have h₃ := lebSize_le (v := name.1.length) (by omega)
    have h₄ := lebSize_le (v := lebSize name.1.length + name.1.length) (by omega)
    simp only [payloadSize, sectionSize]
    omega

end written

lemma length_loadedFunctions (fns : List EskbFunctionDef) (off : ℕ) :
    (loadedFunctions off fns).length = fns.length := by
  induction fns generalizing off with
  | nil => rfl
  | cons fn fns ih => rw [loadedFunctions, List.length_cons, List.length_cons, ih]

lemma mem_loadedFunctions {fns : List EskbFunctionDef} {fn : EskbFunctionDef} (h : fn ∈ fns) :
    ∀ off, ∃ k, fn.loaded k ∈ loadedFunctions off fns := by
  induction fns with
  | nil => cases h
  | cons g fns ih =>
    intro off
    rcases List.mem_cons.1 h with rfl | h
    · exact ⟨off, List.mem_cons_self ..⟩
    · obtain ⟨k, hk⟩ := ih h (off + g.code.length)
      exact ⟨k, List.mem_cons_of_mem _ hk⟩

section written
variable {a : Allocator} {constants : List EskbConst} {functions : List EskbFunctionDef}
  {sourceFile : Option CStr} (hconsts : constants.length ≤ intMax) (hok : FunctionsOk functions)
  {bytes : List UInt8}
  (hw : eskbWriteFileWithFunctions constants functions sourceFile = some bytes)
include hconsts hok hw

/-- The loader's guarantees, read off the module a written file is to load to. -/
lemma LoaderLimits.of_loaded {ts : List SectionTrace} (hload : eskbLoadMemory a bytes
    = .returned 0 (expectedModule constants functions sourceFile) ts) :
    LoaderLimits constants functions sourceFile := by
  obtain ⟨rfl, hnames⟩ := eskbWriteFileWithFunctions_eq hok.targets hw
  rw [eskbLoadMemory_headerOf] at hload
  set p := payloadOf (constSection constants) (functionsBytes functions) sourceFile
  have hspec := eskbParsePayload_spec a p _ rfl
  cases hparse : eskbParsePayload a (LoadState.init p) with
  | error e s => rw [hparse] at hload; cases e <;> cases hload
  | ok u s =>
    rw [hparse] at hload hspec
    obtain ⟨hmod, -⟩ := hspec
    simp only [LoadResult.returned.injEq, true_and] at hload
    rw [hload.1] at hmod
    have hsrc : ∀ name, sourceFile = some name → name.1.length ≤ 255 := by
      rintro name rfl
      exact hmod.sourceFile_le
    have hcount : functions.length ≤ 4096 := by
      have := hmod.functions_le
      rwa [expectedModule, Option.getD_some, length_loadedFunctions] at this
    refine ⟨hsrc, hcount, fun fn hfn => ?_, ?_⟩
    · obtain ⟨k, hk⟩ := mem_loadedFunctions hfn 0
      exact hmod.nLocals_le _ hk
    · exact payloadSize_le_of_runs hconsts hok hnames hsrc hcount hparse

/-- A written file loads to exactly what was written if and only if it stays inside the four
limits the loader has and the writer lacks. -/
theorem eskbLoadMemory_written_iff (ha : ∀ n < 2 ^ 63, a.grants n = true) :
    (∃ ts, eskbLoadMemory a bytes
        = .returned 0 (expectedModule constants functions sourceFile) ts) ↔
      LoaderLimits constants functions sourceFile := by
  constructor
  · rintro ⟨ts, hload⟩
    exact LoaderLimits.of_loaded hconsts hok hw hload
  · intro hlim
    obtain ⟨rfl, hnames⟩ := eskbWriteFileWithFunctions_eq hok.targets hw
    obtain ⟨s', hs', hmod⟩ := eskbParsePayload_written ha hconsts hok hnames hlim
    rw [eskbLoadMemory_headerOf, show eskbParsePayload a _ = .ok () s' from hs']
    exact ⟨s'.visited, by simp only [hmod]⟩

end written

/-- A function of `n` parameters with the code `code`, which is at `base`. -/
def smallFunction (name n : UInt8) (hname : name ≠ 0) (base : ℤ) (code : List EskbInstr)
    (hcode : ∀ i ∈ code, IsInt32 i.operand) : EskbFunctionDef where
  name := ⟨[name], by simpa using hname.symm⟩
  nParams := n
  nLocals := 0
  nUpvalues := 0
  code := code
  codeBase := base
  code_int32 := hcode

/-- One function `f` of a single instruction (opcode 0). -/
def tinyFunction : EskbFunctionDef := smallFunction 102 0 (by decide) 0 [⟨0, 0⟩] (by decide)

/-- A function `g` at address 3 that jumps to its last instruction. -/
def jumpingFunction : EskbFunctionDef := smallFunction 103 1 (by decide) 3 [⟨28, 5⟩, ⟨1, 0⟩, ⟨0, 0⟩] (by decide)

lemma tinyFunction_ok : FunctionsOk [tinyFunction] where
  names_distinct := List.pairwise_singleton _ _
  targets := by decide
  code_le := by decide
  count_le := by decide

/-- A source file name of `n` letters. -/
def longName (n : ℕ) : CStr :=
  ⟨List.replicate n 97, fun h => absurd (List.eq_of_mem_replicate h) (by decide)⟩

/-- A constant. -/
def seven : EskbConst := ⟨constInt64, 7, [], by decide⟩

/-- A file with a constant, two functions, one of them relocated, and a source name, loaded back. -/
theorem eskbLoadMemory_relocated : ∃ bytes,
    eskbWriteFileWithFunctions [seven] [tinyFunction, jumpingFunction] (some (longName 1)) = some bytes ∧
      ∃ ts, eskbLoadMemory Allocator.unlimited bytes
        = .returned 0 (expectedModule [seven] [tinyFunction, jumpingFunction] (some (longName 1))) ts :=
  ⟨_, rfl, (eskbLoadMemory_written_iff (by decide) ⟨by decide, by decide, by decide, by decide⟩ rfl
    fun n hn => decide_eq_true hn).2 ⟨by rintro _ ⟨⟩; decide, by decide, by decide, by decide +kernel⟩⟩

/-- With a source name of 256 letters the writer succeeds and the loader refuses the file. -/
theorem eskbLoadMemory_longName_rejected : ∃ bytes,
    eskbWriteFileWithFunctions [] [tinyFunction] (some (longName 256)) = some bytes ∧
      ¬ ∃ ts, eskbLoadMemory Allocator.unlimited bytes
        = .returned 0 (expectedModule [] [tinyFunction] (some (longName 256))) ts := by
  refine ⟨_, rfl, ?_⟩
  rintro ⟨ts, hload⟩
  have hlim := LoaderLimits.of_loaded (by decide) tinyFunction_ok rfl hload
  have hle := hlim.source_le _ rfl
  rw [longName, List.length_replicate] at hle
  omega

end Eskb

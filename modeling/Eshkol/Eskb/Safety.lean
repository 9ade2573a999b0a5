import Mathlib.Tactic.Linarith
import Eshkol.Eskb.Reader

/-!
# What the loader guarantees

For an arbitrary byte string, `eskb_load_memory` never reads outside the section it is
parsing, and it ends either with return code -1 and a zeroed module or with a module whose
functions tile the code array, whose code targets stay inside their function and whose
function names are distinct.
-/

namespace Eskb

open ErrorState

/-! ## Well-formed modules -/

/-- The functions occupy consecutive ranges from `start` to `stop`. -/
def Tiles : List EskbFunction → ℕ → ℕ → Prop
  | [], start, stop => start = stop
  | f :: fs, start, stop => f.codeOffset = start ∧ Tiles fs (start + f.codeLen) stop

/-- Every code target inside `f` is an address of `f`. -/
def TargetsInside (code : List EskbInstr) (f : EskbFunction) : Prop :=
  ∀ k i, f.codeOffset ≤ k → k < f.codeOffset + f.codeLen → code[k]? = some i →
    operandIsCodeTarget i.op → (f.codeOffset : ℤ) ≤ i.operand ∧
      i.operand < f.codeOffset + f.codeLen

/-- The module invariant between two functions. -/
structure EskbModule.Ok (m : EskbModule) : Prop where
  code_length : m.code.length = m.codeLen
  codeLen_le : m.codeLen ≤ vmMaxCode
  tiles : Tiles (m.functions.getD []) 0 m.codeLen
  targets : ∀ f ∈ m.functions.getD [], TargetsInside m.code f
  names_length : ∀ f ∈ m.functions.getD [], 1 ≤ f.name.length ∧ f.name.length ≤ 255
  names_distinct : (m.functions.getD []).Pairwise fun f g => cString f.name ≠ cString g.name
  nLocals_le : ∀ f ∈ m.functions.getD [], f.nLocals ≤ intMax
  sourceFile_le : m.sourceFile.length ≤ 255
  functions_le : (m.functions.getD []).length ≤ 4096

lemma Tiles.append {fs : List EskbFunction} {f : EskbFunction} :
    ∀ {start stop : ℕ}, Tiles fs start stop → f.codeOffset = stop →
      Tiles (fs ++ [f]) start (stop + f.codeLen) := by
  induction fs with
  | nil =>
    intro start stop h hf
    cases h
    exact ⟨hf, rfl⟩
  | cons g gs ih =>
    intro start stop h hf
    exact ⟨h.1, ih h.2 hf⟩

/-- In a tiling, every function ends at or before the end of the tiled range. -/
lemma Tiles.mem_le {fs : List EskbFunction} :
    ∀ {start stop : ℕ}, Tiles fs start stop → start ≤ stop ∧
      ∀ f ∈ fs, start ≤ f.codeOffset ∧ f.codeOffset + f.codeLen ≤ stop := by
  induction fs with
  | nil =>
    intro start stop h
    cases h
    exact ⟨le_rfl, fun f hf => by simp at hf⟩
  | cons g gs ih =>
    intro start stop h
    obtain ⟨hle, hmem⟩ := ih h.2
    refine ⟨by omega, fun f hf => ?_⟩
    rcases List.mem_cons.1 hf with rfl | hf
    · exact ⟨h.1.ge, by have := h.1; omega⟩
    · have := hmem f hf
      omega

/-- Appending code does not move the instructions of the functions already there. -/
lemma TargetsInside.append {code new : List EskbInstr} {f : EskbFunction}
    (h : TargetsInside code f) (hle : f.codeOffset + f.codeLen ≤ code.length) :
    TargetsInside (code ++ new) f := by
  intro k i hk hk' hget
  rw [List.getElem?_append_left (by omega)] at hget
  exact h k i hk hk' hget

/-! ## Scanning a section -/

/-- Only the reader's position moved, forwards and inside the window. -/
structure Within (s₀ s : LoadState) : Prop where
  mem_eq : s.r.mem = s₀.r.mem
  base_eq : s.r.base = s₀.r.base
  len_eq : s.r.len = s₀.r.len
  le_pos : s₀.r.pos ≤ s.r.pos
  pos_le : s.r.pos ≤ s.r.len
  visited_eq : s.visited = s₀.visited

lemma Within.refl {s : LoadState} (h : s.r.Valid) : Within s s :=
  ⟨rfl, rfl, rfl, le_rfl, h.pos_le, rfl⟩

lemma Within.trans {s₀ s₁ s₂ : LoadState} (h₁ : Within s₀ s₁) (h₂ : Within s₁ s₂) :
    Within s₀ s₂ where
  mem_eq := h₂.mem_eq.trans h₁.mem_eq
  base_eq := h₂.base_eq.trans h₁.base_eq
  len_eq := h₂.len_eq.trans h₁.len_eq
  le_pos := h₁.le_pos.trans h₂.le_pos
  pos_le := h₂.pos_le
  visited_eq := h₂.visited_eq.trans h₁.visited_eq

lemma Within.valid {s₀ s : LoadState} (h : Within s₀ s) (h₀ : s₀.r.Valid) : s.r.Valid := by
  refine ⟨?_, h.pos_le⟩
  rw [h.mem_eq, h.base_eq, h.len_eq]
  exact h₀.base_le

/-- A change of the module alone stays within. -/
lemma Within.of_mod {s₀ s : LoadState} (h : Within s₀ s) {t : LoadState} (hr : t.r = s.r)
    (hv : t.visited = s.visited) : Within s₀ t := by
  obtain ⟨h1, h2, h3, h4, h5, h6⟩ := h
  exact ⟨by rw [hr, h1], by rw [hr, h2], by rw [hr, h3], by rw [hr]; exact h4,
    by rw [hr]; exact h5, by rw [hv, h6]⟩

/-- From `s₀`, `m` reads only inside the window and ends, if it ends normally, in `Q`. -/
def Does (s₀ : LoadState) {α : Type} (m : LoadM α) (Q : α → LoadState → Prop) : Prop :=
  Spec (fun s => s = s₀) m (fun a s => Within s₀ s ∧ Q a s) (fun e _ => e ≠ .outOfBounds)

section rules
variable {α β : Type} {s₀ : LoadState} {m : LoadM α} {Q Q' : α → LoadState → Prop}
  {R : β → LoadState → Prop}

lemma Does.bind {f : α → LoadM β} (hm : Does s₀ m Q)
    (hf : ∀ a s, Within s₀ s → Q a s → Does s (f a) R) : Does s₀ (m >>= f) R := by
  refine Spec.bind hm fun a s hs => ?_
  have h := hf a s hs.1 hs.2
  exact h.weaken (fun _ h => h) (fun _ _ h => ⟨hs.1.trans h.1, h.2⟩) s rfl

lemma Does.weaken (hm : Does s₀ m Q) (h : ∀ a s, Within s₀ s → Q a s → Q' a s) :
    Does s₀ m Q' :=
  Spec.weaken hm (fun _ h => h) fun a s hs => ⟨hs.1, h a s hs.1 hs.2⟩

lemma Does.pure {a : α} (h₀ : s₀.r.Valid) (h : Q a s₀) : Does s₀ (pure a) Q :=
  Spec.pure fun s hs => by subst hs; exact ⟨Within.refl h₀, h⟩

lemma Does.reject : Does s₀ (throw .reject : LoadM α) Q :=
  Spec.throw fun _ _ => by decide

lemma Does.get {f : LoadState → LoadM β} (h : Does s₀ (f s₀) R) : Does s₀ (get >>= f) R := by
  intro s hs
  subst hs
  exact h s rfl

/-- An assignment that leaves the reader alone. -/
lemma Does.modify {g : LoadState → LoadState} {Q : Unit → LoadState → Prop}
    (h₀ : s₀.r.Valid) (hr : (g s₀).r = s₀.r) (hv : (g s₀).visited = s₀.visited)
    (h : Q () (g s₀)) : Does s₀ (modify g) Q :=
  Spec.modify (Q := fun s => Within s₀ s ∧ Q () s) fun s hs => by
    subst hs; exact ⟨(Within.refl h₀).of_mod hr hv, h⟩

lemma Does.ite {c : Prop} [Decidable c] {m n : LoadM α} (ht : c → Does s₀ m Q)
    (he : ¬c → Does s₀ n Q) : Does s₀ (if c then m else n) Q :=
  Spec.ite ht he

end rules

/-! ## The reader's primitives -/

lemma castInt_le (n : ℕ) : castInt n ≤ n := by
  unfold castInt
  rw [BitVec.toInt_eq_toNat_cond]
  have hmod : (BitVec.ofNat 32 n).toNat ≤ n := by
    rw [BitVec.toNat_ofNat]
    exact Nat.mod_le _ _
  split <;> omega

lemma EskbReader.Valid.load_isSome {r : EskbReader} (h : r.Valid) {i : ℕ} (hi : i < r.len) :
    ∃ b, r.load i = some b := by
  have hlt : r.base + i < r.mem.length := by
    have := h.base_le
    omega
  exact ⟨r.mem[r.base + i], by rw [EskbReader.load, if_pos hi, List.getElem?_eq_getElem hlt]⟩

lemma Within.advance {s : LoadState} {n : ℕ} (h : s.r.pos + n ≤ s.r.len) :
    Within s (s.advance n) :=
  ⟨rfl, rfl, rfl, by simp [LoadState.advance], h, rfl⟩

lemma loadByte_does {s₀ : LoadState} (h₀ : s₀.r.Valid) {i : ℕ} (hi : i < s₀.r.len) :
    Does s₀ (loadByte i) fun _ s => s = s₀ := by
  obtain ⟨b, hb⟩ := h₀.load_isSome hi
  apply Does.get
  rw [hb]
  exact Does.pure h₀ rfl

/-- A scan: the module is untouched. -/
abbrev Scans (s₀ : LoadState) {α : Type} (m : LoadM α) (Q : α → Prop) : Prop :=
  Does s₀ m fun a s => s.mod = s₀.mod ∧ Q a

/-- Moving the position after a read. -/
lemma advance_scans {s₀ : LoadState} {n : ℕ} (h : s₀.r.pos + n ≤ s₀.r.len) {α : Type} {a : α}
    {Q : α → Prop} (hQ : Q a) :
    Scans s₀ (do modify (·.advance n); pure a) Q := by
  intro s hs
  subst hs
  exact ⟨Within.advance h, rfl, hQ⟩

lemma eskbReadU8_scans {s₀ : LoadState} (h₀ : s₀.r.Valid) :
    Scans s₀ eskbReadU8 fun _ => True := by
  apply Does.get
  apply Does.ite
  · intro _
    exact Does.reject
  · intro hpos
    refine Does.bind (loadByte_does h₀ (by omega)) fun b s _ hs => ?_
    subst hs
    exact advance_scans (by omega) trivial

lemma eskbReadBytes_scans {s₀ : LoadState} (h₀ : s₀.r.Valid) (hlen : s₀.r.len < 2 ^ 63)
    {n : ℕ} (hn : n < 2 ^ 63) : Scans s₀ (eskbReadBytes n) fun bs => bs.length = n := by
  have hpos := h₀.pos_le
  have hbase := h₀.base_le
  apply Does.get
  apply Does.ite
  · intro _
    exact Does.reject
  · intro hle
    -- neither summand reaches 2^63, so the check is about the true sum
    rw [Nat.mod_eq_of_lt (by omega)] at hle
    have hslice : s₀.r.slice s₀.r.pos n
        = some ((s₀.r.mem.drop (s₀.r.base + s₀.r.pos)).take n) := by
      rw [EskbReader.slice, if_pos (by omega)]
    rw [hslice]
    refine advance_scans (by omega) ?_
    rw [List.length_take, List.length_drop]
    omega

lemma readLebGroups_does {s₀ : LoadState} (h₀ : s₀.r.Valid) (hpos : s₀.r.pos ≤ s₀.r.len) :
    ∀ fuel n out, n ≤ s₀.r.len - s₀.r.pos →
      Does s₀ (readLebGroups s₀.r.pos (s₀.r.len - s₀.r.pos) fuel n out)
        fun p s => s = s₀ ∧ p.1 < 2 ^ 64 ∧ p.2 ≤ s₀.r.len - s₀.r.pos := by
  intro fuel
  induction fuel with
  | zero => exact fun _ _ _ => Does.reject
  | succ fuel ih =>
    intro n out _
    apply Does.ite
    · intro hn
      have hlt : n < s₀.r.len - s₀.r.pos := by
        have := castInt_le (s₀.r.len - s₀.r.pos)
        omega
      refine Does.bind (loadByte_does h₀ (by omega)) fun b s _ hs => ?_
      subst hs
      apply Does.ite
      · intro _
        exact Does.pure h₀ ⟨rfl, Nat.mod_lt _ (by norm_num), by omega⟩
      · intro _
        exact ih (n + 1) _ (by omega)
    · intro _
      exact Does.reject

lemma eskbReadLeb_scans {s₀ : LoadState} (h₀ : s₀.r.Valid) :
    Scans s₀ eskbReadLeb fun v => v < 2 ^ 64 := by
  apply Does.get
  apply Does.ite
  · intro _
    exact Does.reject
  · intro _
    have hpos := h₀.pos_le
    refine Does.bind (readLebGroups_does h₀ hpos 10 0 0 (Nat.zero_le _)) fun p s _ hs => ?_
    obtain ⟨rfl, hv, hn⟩ := hs
    exact advance_scans (by omega) hv

lemma eskbReadWord64_scans {s₀ : LoadState} (h₀ : s₀.r.Valid) (hlen : s₀.r.len < 2 ^ 63) :
    Scans s₀ eskbReadWord64 fun _ => True := by
  refine Does.bind (eskbReadBytes_scans h₀ hlen (by norm_num)) fun bs s hw hs => ?_
  exact Does.pure (hw.valid h₀) ⟨hs.1, trivial⟩

lemma eskbReadString_scans {s₀ : LoadState} (h₀ : s₀.r.Valid) (hlen : s₀.r.len < 2 ^ 63) :
    Scans s₀ (eskbReadString 256) fun bs => bs.length ≤ 255 := by
  refine Does.bind (eskbReadLeb_scans h₀) fun slen s hw hs => ?_
  apply Does.ite
  · intro _
    exact Does.reject
  · intro hle
    refine (eskbReadBytes_scans (hw.valid h₀) (by rwa [hw.len_eq]) (by omega)).weaken ?_
    rintro bs t _ ⟨ht, hbs⟩
    exact ⟨ht.trans hs.1, by omega⟩

lemma eskbReadStringAlloc_scans {s₀ : LoadState} (a : Allocator) (h₀ : s₀.r.Valid)
    (hlen : s₀.r.len < 2 ^ 63) : Scans s₀ (eskbReadStringAlloc a) fun _ => True := by
  refine Does.bind (eskbReadLeb_scans h₀) fun slen s hw hs => ?_
  apply Does.ite
  · intro _
    exact Does.reject
  · intro _
    apply Does.ite
    · intro hg
      -- a granted length is far from the wrap of `pos + n`
      have hlt := a.grants_le _ hg
      refine (eskbReadBytes_scans (hw.valid h₀) (by rwa [hw.len_eq]) (by omega)).weaken ?_
      rintro bs t _ ⟨ht, _⟩
      exact ⟨ht.trans hs.1, trivial⟩
    · intro _
      exact Does.reject

lemma eskbReadInstruction_scans {s₀ : LoadState} (h₀ : s₀.r.Valid) :
    Scans s₀ eskbReadInstruction fun _ => True := by
  refine Does.bind (eskbReadU8_scans h₀) fun op s hw hs => ?_
  refine Does.bind (eskbReadLeb_scans (hw.valid h₀)) fun zz t hw' ht => ?_
  have hv := hw'.valid (hw.valid h₀)
  apply Does.ite
  · intro _
    exact Does.reject
  · intro _
    apply Does.ite
    · intro _
      exact Does.reject
    · intro _
      exact Does.pure hv ⟨ht.1.trans hs.1, trivial⟩

/-! ## The CONST section -/

lemma readConst_scans {s₀ : LoadState} (a : Allocator) (h₀ : s₀.r.Valid)
    (hlen : s₀.r.len < 2 ^ 63) : Scans s₀ (readConst a) fun _ => True := by
  refine Does.bind (eskbReadU8_scans h₀) fun ctype s hw hs => ?_
  have hv := hw.valid h₀
  have hl : s.r.len < 2 ^ 63 := by rwa [hw.len_eq]
  -- the constructors of the result differ, the reads do not
  have hword : ∀ f : BitVec 64 → LoadedConst,
      Does s (do let w ← eskbReadWord64; pure (f w)) fun _ t => t.mod = s₀.mod ∧ True := by
    intro f
    refine Does.bind (eskbReadWord64_scans hv hl) fun w t hw' ht => ?_
    exact Does.pure (hw'.valid hv) ⟨ht.1.trans hs.1, trivial⟩
  apply Does.ite
  · intro _
    exact Does.pure hv ⟨hs.1, trivial⟩
  · intro _
    apply Does.ite
    · intro _
      exact hword (fun w => { ctype, cint := w, cfloat := 0, cstring := none })
    · intro _
      apply Does.ite
      · intro _
        exact hword (fun w => { ctype, cint := 0, cfloat := w, cstring := none })
      · intro _
        apply Does.ite
        · intro _
          refine Does.bind (eskbReadU8_scans hv) fun bv t hw' ht => ?_
          exact Does.pure (hw'.valid hv) ⟨ht.1.trans hs.1, trivial⟩
        · intro _
          apply Does.ite
          · intro _
            refine Does.bind (eskbReadStringAlloc_scans a hv hl) fun str t hw' ht => ?_
            exact Does.pure (hw'.valid hv) ⟨ht.1.trans hs.1, trivial⟩
          · intro _
            exact hword (fun w => { ctype, cint := w, cfloat := 0, cstring := none })

/-- The invariant does not mention the constants. -/
lemma EskbModule.Ok.withConstants {m : EskbModule} (h : m.Ok) (cs : Option (List LoadedConst)) :
    { m with constants := cs }.Ok :=
  ⟨h.code_length, h.codeLen_le, h.tiles, h.targets, h.names_length, h.names_distinct,
    h.nLocals_le, h.sourceFile_le, h.functions_le⟩

lemma readConsts_does (a : Allocator) (n : ℕ) : ∀ {s₀ : LoadState}, s₀.r.Valid →
    s₀.r.len < 2 ^ 63 → s₀.mod.Ok → Does s₀ (readConsts a n) fun _ s => s.mod.Ok := by
  induction n with
  | zero => exact fun h₀ _ hok => Does.pure h₀ hok
  | succ n ih =>
    intro s₀ h₀ hlen hok
    refine Does.bind (readConst_scans a h₀ hlen) fun c s hw hs => ?_
    have hok' : (s.pushConst c).mod.Ok := by
      have : s.mod.Ok := by rw [hs.1]; exact hok
      exact this.withConstants _
    refine Does.bind (Does.modify (Q := fun _ t => t.mod.Ok) (hw.valid h₀) rfl rfl hok')
      fun _ t hw' ht => ?_
    exact ih (hw'.valid (hw.valid h₀)) (by rwa [hw'.len_eq, hw.len_eq]) ht

/-- The final check of a section. -/
lemma expectEnd_does {s₀ : LoadState} (h₀ : s₀.r.Valid) :
    Does s₀ expectEnd fun _ s => s = s₀ ∧ s₀.r.pos = s₀.r.len := by
  apply Does.get
  apply Does.ite
  · intro _
    exact Does.reject
  · intro h
    exact Does.pure h₀ ⟨rfl, not_not.1 h⟩

/-- Where a parsed section leaves off. -/
abbrev SectionDone : Unit → LoadState → Prop := fun _ s => s.mod.Ok ∧ s.r.pos = s.r.len

lemma expectEnd_done {s₀ : LoadState} (h₀ : s₀.r.Valid) (hok : s₀.mod.Ok) :
    Does s₀ expectEnd SectionDone := by
  refine (expectEnd_does h₀).weaken ?_
  rintro _ s _ ⟨rfl, hend⟩
  exact ⟨hok, hend⟩

lemma parseConstSection_does (a : Allocator) {s₀ : LoadState} (h₀ : s₀.r.Valid)
    (hlen : s₀.r.len < 2 ^ 63) (hok : s₀.mod.Ok) : Does s₀ (parseConstSection a) SectionDone := by
  refine Does.bind (eskbReadLeb_scans h₀) fun nc s hw hs => ?_
  have hv := hw.valid h₀
  have hoks : s.mod.Ok := by rw [hs.1]; exact hok
  apply Does.ite
  · intro _
    exact Does.reject
  · intro _
    apply Does.get
    apply Does.ite
    · intro _
      exact Does.reject
    · intro _
      apply Does.ite
      · intro _
        refine Does.bind (Does.modify (Q := fun _ t => t.mod.Ok) hv rfl rfl
          (hoks.withConstants _)) fun _ t hw' ht => ?_
        have hv' := hw'.valid hv
        refine Does.bind (readConsts_does a nc hv' (by rwa [hw'.len_eq, hw.len_eq]) ht)
          fun _ u hw'' hu => ?_
        exact expectEnd_done (hw''.valid hv') hu
      · intro _
        exact Does.reject

/-! ## The CODE section -/

/-- The instruction loop appends `n` instructions whose code targets lie in the function. -/
lemma readInstrs_does (off cl n : ℕ) : ∀ {s₀ : LoadState}, s₀.r.Valid →
    Does s₀ (readInstrs off cl n) fun _ s => ∃ new : List EskbInstr,
      s.mod = { s₀.mod with code := s₀.mod.code ++ new } ∧ new.length = n ∧
      ∀ i ∈ new, operandIsCodeTarget i.op → (off : ℤ) ≤ i.operand ∧ i.operand < off + cl := by
  induction n with
  | zero =>
    intro s₀ h₀
    exact Does.pure h₀ ⟨[], by simp, rfl, by simp⟩
  | succ n ih =>
    intro s₀ h₀
    refine Does.bind (eskbReadInstruction_scans h₀) fun i s hw hs => ?_
    have hv := hw.valid h₀
    -- one pushed instruction in front of the ones the rest of the loop appends
    have hpush : ∀ j : EskbInstr,
        (operandIsCodeTarget j.op → (off : ℤ) ≤ j.operand ∧ j.operand < off + cl) →
        Does s (do modify (·.pushInstr j); readInstrs off cl n) fun _ t =>
          ∃ new : List EskbInstr, t.mod = { s₀.mod with code := s₀.mod.code ++ new } ∧
            new.length = n + 1 ∧
            ∀ i ∈ new, operandIsCodeTarget i.op → (off : ℤ) ≤ i.operand ∧ i.operand < off + cl := by
      intro j hj
      refine Does.bind (Does.modify (Q := fun _ t => t = s.pushInstr j) hv rfl rfl rfl)
        fun _ t hw' ht => ?_
      refine (ih (hw'.valid hv)).weaken ?_
      rintro _ u _ ⟨new, hmod, hlen, hnew⟩
      refine ⟨j :: new, ?_, by simp [hlen], ?_⟩
      · rw [hmod, ht]
        simp [LoadState.pushInstr, hs.1]
      · intro k hk
        rcases List.mem_cons.1 hk with rfl | hk
        · exact hj
        · exact hnew k hk
    apply Does.ite
    · intro htgt
      apply Does.ite
      · intro _
        exact Does.reject
      · intro hrange
        exact hpush _ fun _ => by
          constructor
          · simp only; omega
          · simp only; omega
    · intro htgt
      exact hpush i fun h => absurd h htgt

/-- The invariant after a function has been appended. -/
lemma EskbModule.Ok.pushFunction {m : EskbModule} (h : m.Ok) {f : EskbFunction}
    {new : List EskbInstr} (hoff : f.codeOffset = m.codeLen) (hcl : new.length = f.codeLen)
    (hmax : m.codeLen + f.codeLen ≤ vmMaxCode)
    (hname : 1 ≤ f.name.length ∧ f.name.length ≤ 255) (hloc : f.nLocals ≤ intMax)
    (hdist : ∀ g ∈ m.functions.getD [], cString g.name ≠ cString f.name)
    (hcount : (m.functions.getD []).length < 4096)
    (htgt : ∀ i ∈ new, operandIsCodeTarget i.op →
      (f.codeOffset : ℤ) ≤ i.operand ∧ i.operand < f.codeOffset + f.codeLen) :
    { m with
      code := m.code ++ new
      codeLen := m.codeLen + f.codeLen
      functions := some (m.functions.getD [] ++ [f]) }.Ok where
  code_length := by simp [h.code_length, hcl]
  codeLen_le := hmax
  tiles := h.tiles.append hoff
  targets := by
    intro g hg
    simp only [Option.getD_some, List.mem_append, List.mem_singleton] at hg
    rcases hg with hg | rfl
    · refine (h.targets g hg).append ?_
      rw [h.code_length]
      exact (h.tiles.mem_le.2 g hg).2
    · intro k i hk _ hget hop
      have hk' : m.code.length ≤ k := by rw [h.code_length, ← hoff]; exact hk
      simp only at hget
      rw [List.getElem?_append_right hk'] at hget
      exact htgt i (List.mem_of_getElem? hget) hop
  names_length := by
    intro g hg
    simp only [Option.getD_some, List.mem_append, List.mem_singleton] at hg
    rcases hg with hg | rfl
    · exact h.names_length g hg
    · exact hname
  names_distinct := by
    simp only [Option.getD_some]
    rw [List.pairwise_append]
    refine ⟨h.names_distinct, List.pairwise_singleton _ _, ?_⟩
    intro g hg f' hf'
    rw [List.mem_singleton.1 hf']
    exact hdist g hg
  nLocals_le := by
    intro g hg
    simp only [Option.getD_some, List.mem_append, List.mem_singleton] at hg
    rcases hg with hg | rfl
    · exact h.nLocals_le g hg
    · exact hloc
  sourceFile_le := h.sourceFile_le
  functions_le := by simp only [Option.getD_some, List.length_append, List.length_singleton]; omega

lemma readFunctionName_scans (a : Allocator) {s₀ : LoadState} (h₀ : s₀.r.Valid)
    (hlen : s₀.r.len < 2 ^ 63) : Scans s₀ (readFunctionName a) fun fname =>
      (1 ≤ fname.length ∧ fname.length ≤ 255) ∧
      ∀ g ∈ s₀.mod.functions.getD [], cString g.name ≠ cString fname := by
  refine Does.bind (eskbReadStringAlloc_scans a h₀ hlen) fun fname s hw hs => ?_
  apply Does.ite
  · intro _
    exact Does.reject
  · intro hl
    apply Does.get
    apply Does.ite
    · intro _
      exact Does.reject
    · intro hany
      refine Does.pure (hw.valid h₀) ⟨hs.1, by omega, fun g hg heq => ?_⟩
      rw [hs.1] at hany
      exact hany (List.any_eq_true.2 ⟨g, hg, by simp [heq]⟩)

lemma readFunction_does (a : Allocator) {s₀ : LoadState} (h₀ : s₀.r.Valid)
    (hlen : s₀.r.len < 2 ^ 63) (hok : s₀.mod.Ok)
    (hcount : (s₀.mod.functions.getD []).length < 4096) :
    Does s₀ (readFunction a) fun _ s => s.mod.Ok ∧
      (s.mod.functions.getD []).length = (s₀.mod.functions.getD []).length + 1 := by
  refine Does.bind (readFunctionName_scans a h₀ hlen) fun fname s₁ hw₁ h₁ => ?_
  have hv₁ := hw₁.valid h₀
  refine Does.bind (eskbReadU8_scans hv₁) fun np s₂ hw₂ h₂ => ?_
  have hv₂ := hw₂.valid hv₁
  refine Does.bind (eskbReadLeb_scans hv₂) fun nl s₃ hw₃ h₃ => ?_
  have hv₃ := hw₃.valid hv₂
  apply Does.ite
  · intro _
    exact Does.reject
  intro hnl
  refine Does.bind (eskbReadU8_scans hv₃) fun nuv s₄ hw₄ h₄ => ?_
  have hv₄ := hw₄.valid hv₃
  refine Does.bind (eskbReadLeb_scans hv₄) fun cl s₅ hw₅ h₅ => ?_
  have hv₅ := hw₅.valid hv₄
  have hmod : s₅.mod = s₀.mod := by rw [h₅.1, h₄.1, h₃.1, h₂.1, h₁.1]
  apply Does.ite
  · intro _
    exact Does.reject
  intro hcl
  apply Does.get
  apply Does.ite
  · intro _
    exact Does.reject
  intro _
  apply Does.ite
  · intro _
    exact Does.reject
  intro hmax
  apply Does.ite
  · intro _
    refine Does.bind (Does.modify (Q := fun _ t => t = s₅.pushFunction _) hv₅ rfl rfl rfl)
      fun _ s₆ hw₆ h₆ => ?_
    have hv₆ := hw₆.valid hv₅
    refine Does.bind (readInstrs_does _ cl cl hv₆) fun _ s₇ hw₇ h₇ => ?_
    obtain ⟨new, hnew, hnlen, htgt⟩ := h₇
    refine Does.modify (hw₇.valid hv₆) rfl rfl ?_
    have hfinal := hok.pushFunction (f := ⟨fname, np.toNat, nl, nuv.toNat, s₅.mod.codeLen, cl⟩)
      (by simp [hmod]) hnlen (by rw [← hmod]; simp only; omega) h₁.2.1 (by simp only; omega)
      h₁.2.2 hcount htgt
    have hstate : (s₇.setCodeLen (s₅.mod.codeLen + cl)).mod = { s₀.mod with
        code := s₀.mod.code ++ new
        codeLen := s₀.mod.codeLen + cl
        functions := some (s₀.mod.functions.getD []
          ++ [⟨fname, np.toNat, nl, nuv.toNat, s₅.mod.codeLen, cl⟩]) } := by
      simp only [LoadState.setCodeLen, hnew, h₆, LoadState.pushFunction, hmod]
    rw [hstate]
    exact ⟨hfinal, by simp⟩
  · intro _
    exact Does.reject

lemma readFunctions_does (a : Allocator) (n : ℕ) : ∀ {s₀ : LoadState}, s₀.r.Valid →
    s₀.r.len < 2 ^ 63 → s₀.mod.Ok → (s₀.mod.functions.getD []).length + n ≤ 4096 →
    Does s₀ (readFunctions a n) fun _ s => s.mod.Ok := by
  induction n with
  | zero => exact fun h₀ _ hok _ => Does.pure h₀ hok
  | succ n ih =>
    intro s₀ h₀ hlen hok hcount
    refine Does.bind (readFunction_does a h₀ hlen hok (by omega)) fun _ s hw hs => ?_
    exact ih (hw.valid h₀) (by rwa [hw.len_eq]) hs.1 (by omega)

lemma parseCodeSection_does (a : Allocator) {s₀ : LoadState} (h₀ : s₀.r.Valid)
    (hlen : s₀.r.len < 2 ^ 63) (hok : s₀.mod.Ok) : Does s₀ (parseCodeSection a) SectionDone := by
  refine Does.bind (eskbReadLeb_scans h₀) fun nf s hw hs => ?_
  have hv := hw.valid h₀
  have hoks : s.mod.Ok := by rw [hs.1]; exact hok
  apply Does.ite
  · intro _
    exact Does.reject
  intro hnf
  apply Does.get
  apply Does.ite
  · intro _
    exact Does.reject
  intro hnone
  apply Does.ite
  · intro _
    -- no function was there, so clearing the list keeps the invariant
    have hfn : s.mod.functions = none := by
      cases h : s.mod.functions with
      | none => rfl
      | some fs => rw [h] at hnone; simp at hnone
    have hinit : s.initFunctions.mod.Ok := by
      obtain ⟨h1, h2, h3, h4, h5, h6, h7, h8, h9⟩ := hoks
      rw [hfn] at h3 h4 h5 h6 h7 h9
      exact ⟨h1, h2, h3, h4, h5, h6, h7, h8, h9⟩
    refine Does.bind (Does.modify (Q := fun _ t => t = s.initFunctions) hv rfl rfl rfl)
      fun _ t hw' ht => ?_
    have hv' := hw'.valid hv
    refine Does.bind (readFunctions_does a nf hv' (by rwa [hw'.len_eq, hw.len_eq])
      (by rw [ht]; exact hinit) (by rw [ht]; simp [LoadState.initFunctions]; omega))
      fun _ u hw'' hu => ?_
    exact expectEnd_done (hw''.valid hv') hu
  · intro _
    exact Does.reject

/-! ## The META section -/

lemma parseMetaSection_does {s₀ : LoadState} (h₀ : s₀.r.Valid)
    (hlen : s₀.r.len < 2 ^ 63) (hok : s₀.mod.Ok) : Does s₀ parseMetaSection SectionDone := by
  apply Does.get
  apply Does.ite
  · intro _
    exact Does.reject
  intro _
  refine Does.bind (Does.modify (Q := fun _ t => t = s₀.setDebug) h₀ rfl rfl rfl)
    fun _ s hw hs => ?_
  have hv := hw.valid h₀
  refine Does.bind (eskbReadString_scans hv (by rwa [hw.len_eq])) fun src t hw' ht => ?_
  have hv' := hw'.valid hv
  have hmod : (t.setSourceFile src).mod.Ok := by
    have heq : (t.setSourceFile src).mod
        = { s₀.mod with hasDebug := true, sourceFile := src } := by
      simp [LoadState.setSourceFile, ht.1, hs, LoadState.setDebug]
    rw [heq]
    exact ⟨hok.code_length, hok.codeLen_le, hok.tiles, hok.targets, hok.names_length,
      hok.names_distinct, hok.nLocals_le, ht.2, hok.functions_le⟩
  refine Does.bind (Does.modify (Q := fun _ u => u.mod.Ok) hv' rfl rfl hmod)
    fun _ u hw'' hu => ?_
  exact expectEnd_done (hw''.valid hv') hu

/-! ## The payload -/

/-- Sections, as offset and size, lie one after the other from `start` to `stop`. -/
def SectionsTile : List (ℕ × ℕ) → ℕ → ℕ → Prop
  | [], start, stop => start = stop
  | x :: xs, start, stop => x.1 = start ∧ SectionsTile xs (start + x.2) stop

/-- The sections the loader parses; every other id is skipped. -/
def isParsedSection (sid : UInt8) : Bool :=
  sid == sectionConst || sid == sectionCode || sid == sectionMeta

/-- What the loader did with a section: a parsed one was consumed to its last byte, a skipped
one was not looked at. -/
def SectionTrace.Ok (t : SectionTrace) : Prop :=
  t.consumed = if isParsedSection t.id then t.size else 0

lemma parseSection_does (a : Allocator) (sid : UInt8) {s₀ : LoadState} (h₀ : s₀.r.Valid)
    (hlen : s₀.r.len < 2 ^ 63) (hok : s₀.mod.Ok) (hpos : s₀.r.pos = 0) :
    Does s₀ (parseSection a sid) fun _ s => s.mod.Ok ∧
      s.r.pos = if isParsedSection sid then s.r.len else 0 := by
  have hdone : isParsedSection sid = true → ∀ m : LoadM Unit, Does s₀ m SectionDone →
      Does s₀ m fun _ s => s.mod.Ok ∧ s.r.pos = if isParsedSection sid then s.r.len else 0 := by
    intro hp m hm
    refine hm.weaken fun _ s _ hs => ?_
    rw [if_pos hp]
    exact hs
  apply Does.ite
  · intro h
    exact hdone (by simp [isParsedSection, h]) _ (parseConstSection_does a h₀ hlen hok)
  intro h1
  apply Does.ite
  · intro h
    exact hdone (by simp [isParsedSection, h]) _ (parseCodeSection_does a h₀ hlen hok)
  intro h2
  apply Does.ite
  · intro h
    exact hdone (by simp [isParsedSection, h]) _ (parseMetaSection_does h₀ hlen hok)
  intro h3
  refine Does.pure h₀ ⟨hok, ?_⟩
  rw [if_neg (by simp [isParsedSection, h1, h2, h3])]
  exact hpos

/-- The traces left by a run over `secs`. -/
def Traces (secs : List (UInt8 × ℕ × ℕ)) (ts : List SectionTrace) : Prop :=
  ts.map (fun t => (t.id, t.offset, t.size)) = secs ∧ ∀ t ∈ ts, t.Ok

lemma parseSections_spec (a : Allocator) (mem : List UInt8) :
    ∀ (secs : List (UInt8 × ℕ × ℕ)) (v : List SectionTrace),
      (∀ x ∈ secs, x.2.1 + x.2.2 ≤ mem.length ∧ x.2.2 ≤ uint32Max) →
      Spec (fun s => s.r.mem = mem ∧ s.mod.Ok ∧ s.visited = v) (parseSections a secs)
        (fun _ s => s.mod.Ok ∧ ∃ ts, s.visited = v ++ ts ∧ Traces secs ts)
        (fun e _ => e ≠ .outOfBounds) := by
  intro secs
  induction secs with
  | nil =>
    intro v _
    refine Spec.pure fun s hs => ⟨hs.2.1, [], by simp [hs.2.2], rfl, by simp⟩
  | cons x rest ih =>
    obtain ⟨sid, offset, size⟩ := x
    intro v hsec
    obtain ⟨hin, hsize⟩ := hsec (sid, offset, size) (by simp)
    simp only at hin hsize
    -- opening the window
    refine Spec.bind (Q := fun _ s => s.r = ⟨mem, offset, size, 0⟩ ∧ s.mod.Ok ∧ s.visited = v)
      (Spec.modify fun s hs => ⟨by simp [LoadState.openSection, hs.1], hs.2.1, hs.2.2⟩)
      fun _ => ?_
    -- parsing it
    refine Spec.bind (Q := fun _ s => s.r.mem = mem ∧ s.mod.Ok ∧ s.visited = v ∧
        s.r.pos = if isParsedSection sid then size else 0) ?_ fun _ => ?_
    · intro s hs
      obtain ⟨hr, hok, hvis⟩ := hs
      have h₀ : s.r.Valid := by
        rw [hr]
        exact ⟨hin, Nat.zero_le _⟩
      have hlt : s.r.len < 2 ^ 63 := by
        rw [hr]
        simp only [uint32Max] at hsize ⊢
        omega
      refine Spec.weaken (parseSection_does a sid h₀ hlt hok (by rw [hr]))
        (fun _ h => h) (fun _ t ht => ?_) s rfl
      obtain ⟨hw, htok, hpos⟩ := ht
      refine ⟨by rw [hw.mem_eq, hr], htok, by rw [hw.visited_eq, hvis], ?_⟩
      rw [hpos, hw.len_eq, hr]
    -- recording it, then the sections after it
    refine Spec.bind (Q := fun _ s => s.r.mem = mem ∧ s.mod.Ok ∧ s.visited = v ++
        [⟨sid, offset, size, if isParsedSection sid then size else 0⟩])
      (Spec.modify fun s hs => ⟨hs.1, hs.2.1, by simp [LoadState.closeSection, hs.2.2]⟩)
      fun _ => ?_
    refine (ih _ fun y hy => hsec y (by simp [hy])).weaken (fun _ h => h) fun _ s hs => ?_
    obtain ⟨hok, ts, hvis, hmap, hts⟩ := hs
    refine ⟨hok, _ :: ts, by rw [hvis, List.append_assoc]; rfl, by simp [hmap], ?_⟩
    intro t ht
    rcases List.mem_cons.1 ht with rfl | ht
    · rfl
    · exact hts t ht

lemma readDescs_scans (n : ℕ) : ∀ {s₀ : LoadState}, s₀.r.Valid →
    Scans s₀ (readDescs n) fun ds => ∀ d ∈ ds, d.2 ≤ uint32Max := by
  induction n with
  | zero => exact fun h₀ => Does.pure h₀ ⟨rfl, by simp⟩
  | succ n ih =>
    intro s₀ h₀
    refine Does.bind (eskbReadU8_scans h₀) fun sid s hw hs => ?_
    refine Does.bind (eskbReadLeb_scans (hw.valid h₀)) fun ssize t hw' ht => ?_
    have hv := hw'.valid (hw.valid h₀)
    apply Does.ite
    · intro _
      exact Does.reject
    intro hle
    refine Does.bind (ih hv) fun ds u hw'' hu => ?_
    refine Does.pure (hw''.valid hv) ⟨by rw [hu.1, ht.1, hs.1], fun d hd => ?_⟩
    rcases List.mem_cons.1 hd with rfl | hd
    · exact Nat.not_lt.1 hle
    · exact hu.2 d hd

/-- The offset loop lays the described sections out from `offset` to the payload's end. -/
lemma layoutSections_scans (L : ℕ) (ds : List (UInt8 × ℕ)) : ∀ {s₀ : LoadState} (offset : ℕ),
    s₀.r.Valid → offset ≤ L →
    Does s₀ (layoutSections L offset ds) fun secs s => s = s₀ ∧
      SectionsTile (secs.map (·.2)) offset L ∧ (secs.map fun x => (x.1, x.2.2)) = ds ∧
      ∀ x ∈ secs, x.2.1 + x.2.2 ≤ L := by
  induction ds with
  | nil =>
    intro s₀ offset h₀ _
    apply Does.ite
    · intro _
      exact Does.reject
    · intro h
      exact Does.pure h₀ ⟨rfl, not_not.1 h, rfl, by simp⟩
  | cons d ds ih =>
    obtain ⟨sid, size⟩ := d
    intro s₀ offset h₀ hle
    apply Does.ite
    · intro _
      exact Does.reject
    intro hfit
    refine Does.bind (ih (offset + size) h₀ (by omega)) fun rest s _ hs => ?_
    obtain ⟨rfl, htile, hds, hin⟩ := hs
    refine Does.pure h₀ ⟨rfl, ⟨rfl, htile⟩, by simp [hds], fun x hx => ?_⟩
    rcases List.mem_cons.1 hx with rfl | hx
    · simp only; omega
    · exact hin x hx

/-- The empty module satisfies the invariant. -/
lemma EskbModule.zero_ok : EskbModule.zero.Ok where
  code_length := rfl
  codeLen_le := Nat.zero_le _
  tiles := rfl
  targets := by simp [EskbModule.zero]
  names_length := by simp [EskbModule.zero]
  names_distinct := by simp [EskbModule.zero]
  nLocals_le := by simp [EskbModule.zero]
  sourceFile_le := Nat.zero_le _
  functions_le := Nat.zero_le _

/-- What the loader went through: sections that tile the payload behind the table, each one
consumed exactly or skipped. -/
def SectionsOk (payload : List UInt8) (ts : List SectionTrace) : Prop :=
  (∃ start, SectionsTile (ts.map fun t => (t.offset, t.size)) start payload.length) ∧
    ∀ t ∈ ts, t.Ok

/-- The payload parser stays in bounds and leaves a well-formed module. -/
lemma eskbParsePayload_spec (a : Allocator) (payload : List UInt8) :
    Spec (fun s => s = LoadState.init payload) (eskbParsePayload a)
      (fun _ s => s.mod.Ok ∧ SectionsOk payload s.visited) (fun e _ => e ≠ .outOfBounds) := by
  have h₀ : (LoadState.init payload).r.Valid :=
    ⟨by simp [LoadState.init], Nat.zero_le _⟩
  refine Spec.bind (eskbReadLeb_scans h₀) fun nSections => ?_
  intro s hs
  obtain ⟨hw, hmod, _⟩ := hs
  have hv := hw.valid h₀
  revert s
  intro s hw hmod hv
  have hbody : Spec (fun t => t = s) (do
      let ds ← readDescs nSections
      let s ← get
      let secs ← layoutSections s.r.len s.r.pos ds
      parseSections a secs)
      (fun _ s => s.mod.Ok ∧ SectionsOk payload s.visited) (fun e _ => e ≠ .outOfBounds) := by
    refine Spec.bind (readDescs_scans nSections hv) fun ds => ?_
    intro t ht
    obtain ⟨hw', ht', hds⟩ := ht
    have hv' := hw'.valid hv
    have hlen : t.r.len = payload.length := by rw [hw'.len_eq, hw.len_eq]; rfl
    have hmem : t.r.mem = payload := by rw [hw'.mem_eq, hw.mem_eq]; rfl
    have hvis : t.visited = [] := by rw [hw'.visited_eq, hw.visited_eq]; rfl
    have hok : t.mod.Ok := by rw [ht', hmod]; exact EskbModule.zero_ok
    refine Spec.bind (layoutSections_scans t.r.len ds t.r.pos hv' hv'.pos_le) (fun secs => ?_)
      t rfl
    intro u hu
    obtain ⟨_, rfl, htile, hmap, hin⟩ := hu
    have hsec : ∀ x ∈ secs, x.2.1 + x.2.2 ≤ payload.length ∧ x.2.2 ≤ uint32Max := by
      intro x hx
      refine ⟨hlen ▸ hin x hx, ?_⟩
      have : (x.1, x.2.2) ∈ ds := by rw [← hmap]; exact List.mem_map_of_mem hx
      exact hds _ this
    refine (parseSections_spec a payload secs [] hsec).weaken (fun _ h => h)
      (fun _ w hwq => ?_) u ⟨hmem, hok, hvis⟩
    obtain ⟨hwok, ts, hwvis, hts, htsok⟩ := hwq
    rw [List.nil_append] at hwvis
    refine ⟨hwok, ⟨u.r.pos, ?_⟩, by rw [hwvis]; exact htsok⟩
    have hproj : w.visited.map (fun t => (t.offset, t.size)) = secs.map (·.2) := by
      rw [hwvis, ← hts, List.map_map]
      rfl
    rw [hproj, ← hlen]
    exact htile
  exact (Spec.ite (fun _ => Spec.throw fun _ _ => by decide) fun _ => hbody) s rfl

/-! ## The guarantee -/

/-- Everything a successful load promises about the module it returns. -/
structure LoadedOk (payload : List UInt8) (mod : EskbModule) (ts : List SectionTrace) : Prop where
  sections : SectionsOk payload ts
  functions_tile : Tiles (mod.functions.getD []) 0 mod.codeLen
  code_length : mod.code.length = mod.codeLen
  codeLen_le : mod.codeLen ≤ vmMaxCode
  targets_inside : ∀ f ∈ mod.functions.getD [], TargetsInside mod.code f
  names_distinct : (mod.functions.getD []).Pairwise fun f g => cString f.name ≠ cString g.name
  names_length : ∀ f ∈ mod.functions.getD [], 1 ≤ f.name.length ∧ f.name.length ≤ 255

/-- For every byte string, the loader either fails and leaves a zeroed module, or returns a
well-formed one; it never reads outside the section being parsed. -/
theorem eskbLoadMemory_safe (a : Allocator) (data : List UInt8) :
    match eskbLoadMemory a data with
    | .returned rc mod ts => (rc = -1 ∧ mod = EskbModule.zero) ∨
        (rc = 0 ∧ LoadedOk (data.drop headerSize) mod ts)
    | .outOfBounds => False := by
  unfold eskbLoadMemory
  split_ifs with h1 h2 h3
  · exact .inl ⟨rfl, rfl⟩
  · exact .inl ⟨rfl, rfl⟩
  · exact .inl ⟨rfl, rfl⟩
  simp only
  by_cases h4 : (eskbCrc32 (data.drop headerSize)).toNat ≠ ByteCodec.ofLE ((data.drop 12).take 4)
  · rw [if_pos h4]
    exact .inl ⟨rfl, rfl⟩
  rw [if_neg h4]
  have hspec := eskbParsePayload_spec a (data.drop headerSize) _ rfl
  cases hp : eskbParsePayload a (LoadState.init (data.drop headerSize)) with
  | ok _ s =>
    rw [hp] at hspec
    obtain ⟨hok, hsec⟩ := hspec
    exact .inr ⟨rfl, hsec, hok.tiles, hok.code_length, hok.codeLen_le, hok.targets,
      hok.names_distinct, hok.names_length⟩
  | error e s =>
    rw [hp] at hspec
    cases e with
    | reject => exact .inl ⟨rfl, rfl⟩
    | outOfBounds => exact hspec rfl

/-- A file image whose only section is a one-byte symbol table (id 3). -/
def symbolSectionFile : List UInt8 :=
  [0x42, 0x4B, 0x53, 0x45, 1, 0, 0, 0, 1, 0, 0, 0, 0x61, 0x37, 0xA5, 0x82, 1, 3, 1, 0]

/-- The loader accepts the image without reading the section's byte. -/
theorem symbolSection_not_consumed : ∃ mod ts,
    eskbLoadMemory Allocator.unlimited symbolSectionFile = .returned 0 mod ts ∧
      ¬ ∀ t ∈ ts, t.consumed = t.size :=
  ⟨EskbModule.zero, [⟨3, 3, 1, 0⟩], by decide, by decide⟩

end Eskb

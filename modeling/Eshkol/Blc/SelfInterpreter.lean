import Eshkol.Blc.Universal

/-!
# The universal machine runs every closed term

The reader hands its continuation the meaning of the term whose code it reads, by induction on
that term; the meaning of a term in an environment is the term with the entries of the environment
in place of its free variables.
-/

namespace Blc

open Scheme Lambda Relation
open Lambda (Tm)

/-! ## Meanings -/

/-- The meaning of a variable: it looks itself up in an environment. -/
def meaningVar : ℕ → Tm
  | 0 => .lam (.app (.var 0) tru)
  | i + 1 => .lam (.app (meaningVar i) (.app (.var 0) fls))

/-- The meaning of a term: a closed function of an environment. -/
def meaning : Tm → Tm
  | .var i => meaningVar i
  | .lam b => .lam (.lam (.app (meaning b) (.lam (.app (.app (.var 0) (.var 1)) (.var 2)))))
  | .app f a => .lam (.app (.app (meaning f) (.var 0)) (.app (meaning a) (.var 0)))

lemma closed_meaningVar (i : ℕ) : (meaningVar i).Closed := by
  induction i with
  | zero => exact fun _ => rfl
  | succ i ih =>
    intro σ
    rw [meaningVar, Tm.subst, Tm.subst, ih]
    rfl

lemma closed_meaning (t : Tm) : (meaning t).Closed := by
  induction t with
  | var i => exact closed_meaningVar i
  | lam b ih =>
    intro σ
    simp only [meaning, Tm.subst, ih.subst_eq]
    rfl
  | app f a ihf iha =>
    intro σ
    simp only [meaning, Tm.subst, ihf.subst_eq, iha.subst_eq]
    rfl

lemma val_meaningVar (i : ℕ) (env : Tm) :
    val (meaningVar i) (val env) = (val env).nth i := by
  induction i generalizing env with
  | zero => exact val_redex _ env
  | succ i ih =>
    rw [meaningVar, val_redex, Tm.subst, closed_meaningVar, val_app, Value.nth]
    exact ih (.app env fls)

/-- In an environment, a meaning is the term with the entries in place of the variables. -/
lemma val_meaning {t env : Tm} {n : ℕ} {σ : ℕ → Tm} (ht : t.FreeBelow n)
    (hσ : ∀ i < n, (val env).nth i = val (σ i)) :
    val (meaning t) (val env) = val (t.subst σ) := by
  induction t generalizing n env σ with
  | var i => rw [meaning, val_meaningVar, hσ i ht, Tm.subst]
  | lam b ih =>
    have hentries : ∀ i < n + 1,
        (val (pair (.var 0) (env.rename Nat.succ))).nth i = val (Tm.up σ i) := by
      intro i hi
      cases i with
      | zero => rw [nth_pair_zero, Tm.up]
      | succ i =>
        rw [nth_pair_succ, val_rename, ← Value.rename_nth, hσ i (by omega), ← val_rename, Tm.up]
    have hbody := ih ht hentries
    rw [meaning, val_redex, Tm.subst, Tm.subst, Tm.subst, (closed_meaning b).subst_eq, val_lam,
      Tm.subst, val_lam, ← hbody]
    rfl
  | app f a ihf iha =>
    rw [Tm.subst, val_app, ← ihf ht.1 hσ, ← iha ht.2 hσ, meaning, val_redex]
    simp only [Tm.subst, (closed_meaning f).subst_eq, (closed_meaning a).subst_eq]
    rfl

/-! ## Streams -/

/-- The boolean of a bit. -/
def bitValue (c : Char) : Tm := if c = '0' then tru else fls

/-- The nested pairs of a string of bits. -/
def stream : List Char → Tm
  | [] => fls
  | c :: rest => pair (bitValue c) (stream rest)

lemma closed_bitValue (c : Char) : (bitValue c).Closed := by
  unfold bitValue
  split
  · exact closed_tru
  · exact closed_fls

lemma closed_stream (bits : List Char) : (stream bits).Closed := by
  induction bits with
  | nil => exact closed_fls
  | cons c rest ih => exact closed_pair (closed_bitValue c) ih

/-- The stream that the library builds. -/
lemma toTm_stream (bits : List Char) :
    toTm (bits.foldr (fun c t => blcCons (if c = '0' then blcTrue else blcFalse) t) blcNil) =
      stream bits := by
  induction bits with
  | nil => rfl
  | cons c rest ih =>
    have hbit : toTm (if c = '0' then blcTrue else blcFalse) = bitValue c := by
      unfold bitValue
      split <;> rfl
    rw [List.foldr_cons, blcCons, toTm, toTm, toTm, toTm, ih, hbit, stream, pair,
      (closed_bitValue c).rename, (closed_stream rest).rename]
    rfl

/-! ## The reader -/

/-- The reader, applied to itself. -/
def run : Tm := .app (toTm Machine.reader) (toTm Machine.reader)

/-- The variables in scope once the second bit arrived. -/
def scope (first second rest k : Tm) : ℕ → Tm :=
  Tm.scons second (Tm.scons k (Tm.scons run (Tm.scons (pair second rest) (Tm.scons first Tm.var))))

lemma val_run (k s : Tm) :
    val run (val k) (val s) = val s (val (toTm Machine.onFirst)) (val run) (val k) := by
  have h := val_lams (toTm (.app (.app (.app (.var 1) Machine.onFirst) (.app (.var 3) (.var 3)))
    (.var 2))) [toTm Machine.reader, k, s] Tm.var
  rw [Tm.subst_var] at h
  exact h

/-- The reader on a stream of two bits or more. -/
lemma val_run_pair (first second rest k : Tm) :
    val run (val k) (val (pair first (pair second rest))) =
      val first (val ((toTm Machine.compound).subst (scope first second rest k)))
        (val ((toTm Machine.variableCode).subst (scope first second rest k))) (val rest) := by
  have h := val_lams (toTm (.app (.var 3) Machine.onSecond)) [first, pair second rest, run, k] Tm.var
  rw [Tm.subst_var] at h
  have hsecond := val_closure (toTm (.app (.app (.var 5) Machine.compound) Machine.variableCode))
    second (Tm.scons k (Tm.scons run (Tm.scons (pair second rest) (Tm.scons first Tm.var))))
  calc val run (val k) (val (pair first (pair second rest)))
    _ = val (toTm Machine.onFirst) (val first) (val (pair second rest)) (val run) (val k) := by
      rw [val_run, val_pair]
    _ = val (pair second rest) (val ((toTm Machine.onSecond).subst
          (Tm.scons k (Tm.scons run (Tm.scons (pair second rest) (Tm.scons first Tm.var)))))) := h
    _ = _ := by
      rw [val_pair]
      exact congrArg (fun v : Value => v (val rest)) hsecond

/-- After a zero, the reader reads a term and hands it to `readPart`. -/
lemma val_run_compound (second rest k : Tm) :
    val run (val k) (val (pair tru (pair second rest))) =
      val run (val ((toTm Machine.readPart).subst (scope tru second rest k))) (val rest) := by
  rw [val_run_pair, val_tru]
  rfl

lemma val_readPart (second rest k part : Tm) :
    val ((toTm Machine.readPart).subst (scope tru second rest k)) (val part) =
      val second
        (val k (val ((toTm Machine.abstraction).subst (Tm.scons part (scope tru second rest k)))))
        (val run
          (val ((toTm Machine.readArgument).subst (Tm.scons part (scope tru second rest k))))) :=
  val_closure _ part _

/-- Once the body of an abstraction was read, the reader is done. -/
lemma val_readPart_lam (rest k b : Tm) :
    val ((toTm Machine.readPart).subst (scope tru tru rest k)) (val (meaning b)) =
      val k (val (meaning (.lam b))) := by
  have habstraction : (toTm Machine.abstraction).subst
      (Tm.scons (meaning b) (scope tru tru rest k)) = meaning (.lam b) := by
    show Tm.lam (.lam (.app (((meaning b).rename Nat.succ).rename Nat.succ) _)) = _
    rw [(closed_meaning b).rename, (closed_meaning b).rename]
    rfl
  rw [val_readPart, habstraction, ← val_app k, ← val_app run]
  exact val_tru _ _

/-- Once the function of an application was read, its argument is. -/
lemma val_readPart_app (rest k f : Tm) :
    val ((toTm Machine.readPart).subst (scope tru fls rest k)) (val (meaning f)) =
      val run (val ((toTm Machine.readArgument).subst
        (Tm.scons (meaning f) (scope tru fls rest k)))) := by
  rw [val_readPart, ← val_app k, ← val_app run]
  exact val_fls _ _

lemma val_readArgument (rest k f a : Tm) :
    val ((toTm Machine.readArgument).subst (Tm.scons (meaning f) (scope tru fls rest k)))
        (val (meaning a)) =
      val k (val (meaning (.app f a))) := by
  have happlication : (toTm Machine.application).subst
      (Tm.scons (meaning a) (Tm.scons (meaning f) (scope tru fls rest k))) =
      meaning (.app f a) := by
    show Tm.lam (.app (.app ((meaning f).rename Nat.succ) _)
      (.app ((meaning a).rename Nat.succ) _)) = _
    rw [(closed_meaning f).rename, (closed_meaning a).rename]
    rfl
  rw [← happlication]
  exact val_closure _ (meaning a) _

/-- A one and a zero are the first variable. -/
lemma val_run_first (rest k : Tm) :
    val run (val k) (val (pair fls (pair tru rest))) = val k (val (meaningVar 0)) (val rest) := by
  rw [val_run_pair, val_fls]
  exact congrArg (fun v : Value => v (val rest)) (val_tru _ _)

/-- After two ones, the stream from the second one on is read as a variable. -/
lemma val_run_later (rest k : Tm) :
    val run (val k) (val (pair fls (pair fls rest))) =
      val run (val ((toTm (.lam (.app (.var 4) Machine.laterVariable))).subst
        (Tm.scons rest (scope fls fls rest k)))) (val (pair fls rest)) := by
  rw [val_run_pair, val_fls]
  refine (congrArg (fun v : Value => v (val rest)) (val_fls _ _)).trans ?_
  exact val_closure _ rest _

lemma val_laterVariable (rest k : Tm) (i : ℕ) :
    val ((toTm (.lam (.app (.var 4) Machine.laterVariable))).subst
        (Tm.scons rest (scope fls fls rest k))) (val (meaningVar i)) =
      val k (val (meaningVar (i + 1))) := by
  have hlater : (toTm Machine.laterVariable).subst
      (Tm.scons (meaningVar i) (Tm.scons rest (scope fls fls rest k))) = meaningVar (i + 1) := by
    show Tm.lam (.app ((meaningVar i).rename Nat.succ) _) = _
    rw [(closed_meaningVar i).rename]
    rfl
  rw [← hlater]
  exact val_closure _ (meaningVar i) _

/-- The reader hands on the variable whose code it reads. -/
lemma val_run_var (i : ℕ) (k : Tm) (rest : List Char) :
    val run (val k) (val (stream (List.replicate (i + 1) '1' ++ '0' :: rest))) =
      val k (val (meaningVar i)) (val (stream rest)) := by
  induction i generalizing k with
  | zero => exact val_run_first (stream rest) k
  | succ i ih =>
    have hlater := val_run_later (stream (List.replicate i '1' ++ '0' :: rest)) k
    refine hlater.trans ((ih _).trans ?_)
    rw [val_laterVariable]

/-- The reader hands its continuation the meaning of the term whose code it reads, and what
follows the code. -/
lemma val_run_code {t : Term} (ht : isTerm t = true) (k : Tm) (rest : List Char) :
    val run (val k) (val (stream (code t ++ rest))) =
      val k (val (meaning (toTm t))) (val (stream rest)) := by
  induction t generalizing k rest with
  | var i =>
    have hi : 1 ≤ i := by simpa [isTerm] using ht
    have hcode : code (.var i) ++ rest =
        List.replicate ((i - 1).toNat + 1) '1' ++ '0' :: rest := by
      rw [code, ones, show (i - 1).toNat + 1 = i.toNat by omega, List.append_assoc,
        List.singleton_append]
    rw [hcode]
    exact val_run_var (i - 1).toNat k rest
  | lam b ih =>
    calc val run (val k) (val (stream (code (.lam b) ++ rest)))
      _ = val run (val ((toTm Machine.readPart).subst
            (scope tru tru (stream (code b ++ rest)) k))) (val (stream (code b ++ rest))) :=
        val_run_compound tru _ k
      _ = val k (val (meaning (toTm (.lam b)))) (val (stream rest)) := by
        rw [ih ht, val_readPart_lam]
        rfl
  | app f a ihf iha =>
    simp only [isTerm, Bool.and_eq_true] at ht
    have hcode : code (.app f a) ++ rest = '0' :: '1' :: (code f ++ (code a ++ rest)) := by
      simp [code]
    rw [hcode]
    calc val run (val k) (val (stream ('0' :: '1' :: (code f ++ (code a ++ rest)))))
      _ = val run (val ((toTm Machine.readPart).subst
            (scope tru fls (stream (code f ++ (code a ++ rest))) k)))
            (val (stream (code f ++ (code a ++ rest)))) :=
        val_run_compound fls _ k
      _ = val k (val (meaning (toTm (.app f a)))) (val (stream rest)) := by
        rw [ihf ht.1, val_readPart_app, iha ht.2, val_readArgument]
        rfl

/-! ## The machine -/

/-- The universal machine on the code of a closed term and what follows it. -/
lemma val_universal {m : Term} (hm : closed m = true) (input : List Char) :
    val (toTm Machine.universal) (val (stream (code m ++ input))) =
      val (toTm m) (val (stream input)) := by
  have hstart : val (toTm Machine.start) (val (meaning (toTm m))) = val (toTm m) := by
    have hmeaning := @val_meaning (toTm m) (toTm blcOmega) 0 Tm.var (freeBelow_of_closedUnder hm)
      (by omega)
    rw [Tm.subst_var] at hmeaning
    exact (val_redex _ _).trans hmeaning
  have hself : val (toTm Machine.universal) = val run (val (toTm Machine.start)) :=
    congrArg (fun v : Value => v (val (toTm Machine.start))) (val_redex _ _)
  rw [hself, val_run_code (isTerm_of_closedUnder hm), hstart]

/-- The universal machine, applied to the stream of the code of a closed term and any bits after
it, is convertible to the term applied to the stream of those bits. -/
theorem universal_machine {m : Term} (hm : closed m = true) {input : List Char}
    (hinput : ∀ c ∈ input, c = '0' ∨ c = '1') :
    ∃ u program argument bits, blcU = .ok u ∧ encode m = .ok program ∧
      encodeInput program input = .ok argument ∧ listOfBits input blcNil = .ok bits ∧
      Convertible (.app u argument) (.app m bits) := by
  have hbits : ∀ c ∈ code m ++ input, c = '0' ∨ c = '1' := by
    intro c hc
    rcases List.mem_append.1 hc with hc | hc
    · exact bit_of_mem_code hc
    · exact hinput c hc
  have hm' := isTerm_of_closedUnder hm
  refine ⟨_, _, _, _, blcU_eq, encode_eq_ok.2 ⟨hm', rfl⟩, listOfBits_ok blcNil hbits,
    listOfBits_ok blcNil hinput, convertible_of_val_eq ?_ ?_ ?_⟩
  · rw [isTerm, isTerm_foldr_cons, Bool.and_true]
    rfl
  · rw [isTerm, isTerm_foldr_cons, Bool.and_true, hm']
  · rw [toTm, toTm, val_app, val_app, toTm_stream, toTm_stream, val_universal hm]

/-- The identity, run on two bits. -/
theorem universal_machine_example :
    ∃ u program argument bits, blcU = .ok u ∧ encode blcI = .ok program ∧
      encodeInput program ['1', '0'] = .ok argument ∧ listOfBits ['1', '0'] blcNil = .ok bits ∧
      Convertible (.app u argument) (.app blcI bits) :=
  universal_machine (m := blcI) (by decide) (by simp)

end Blc

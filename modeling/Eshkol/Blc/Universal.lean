import Eshkol.Base.Conversion
import Eshkol.Blc.Encoding
import Eshkol.Blc.Reduction

/-!
# The universal machine and its input

Streams of bits as nested pairs, the input of the universal machine, and the machine itself, which
the library keeps as the code of a term.
-/

namespace Blc

open Scheme Lambda

/-! ## Closed terms and conversion -/

/-- Every index refers to one of `n` binders outside the term or to a binder in it. -/
def closedUnder (n : ℕ) : Term → Bool
  | .var i => decide (1 ≤ i ∧ i ≤ n)
  | .lam b => closedUnder (n + 1) b
  | .app f a => closedUnder n f && closedUnder n a

/-- A term without free variables. -/
def closed (t : Term) : Bool := closedUnder 0 t

/-- Beta conversion. -/
def Convertible : Term → Term → Prop := Relation.EqvGen BetaStep

lemma isTerm_of_closedUnder {n : ℕ} {t : Term} (h : closedUnder n t = true) : isTerm t = true := by
  induction t generalizing n with
  | var i =>
    simp only [closedUnder, decide_eq_true_eq] at h
    simpa [isTerm] using h.1
  | lam b ih => exact ih h
  | app f a ihf iha =>
    simp only [closedUnder, Bool.and_eq_true] at h
    rw [isTerm, ihf h.1, iha h.2]
    rfl

lemma freeBelow_of_closedUnder {n : ℕ} {t : Term} (h : closedUnder n t = true) :
    (toTm t).FreeBelow n := by
  induction t generalizing n with
  | var i =>
    simp only [closedUnder, decide_eq_true_eq] at h
    rw [toTm, Tm.FreeBelow]
    omega
  | lam b ih => exact ih h
  | app f a ihf iha =>
    simp only [closedUnder, Bool.and_eq_true] at h
    exact ⟨ihf h.1, iha h.2⟩

/-- The term with one-based indices. -/
def ofTm : Tm → Term
  | .var n => .var (n + 1)
  | .lam b => .lam (ofTm b)
  | .app f a => .app (ofTm f) (ofTm a)

lemma isTerm_ofTm (t : Tm) : isTerm (ofTm t) = true := by
  induction t with
  | var n =>
    rw [ofTm, isTerm, decide_eq_true_eq]
    omega
  | lam b ih => exact ih
  | app f a ihf iha => rw [ofTm, isTerm, ihf, iha, Bool.and_self]

lemma toTm_ofTm (t : Tm) : toTm (ofTm t) = t := by
  induction t with
  | var n => simp [ofTm, toTm]
  | lam b ih => rw [ofTm, toTm, ih]
  | app f a ihf iha => rw [ofTm, toTm, ihf, iha]

lemma ofTm_toTm {t : Term} (ht : isTerm t = true) : ofTm (toTm t) = t :=
  toTm_injective (isTerm_ofTm _) ht (toTm_ofTm _)

/-- A beta step contracts a redex of the term with one-based indices. -/
lemma betaStep_ofTm {t u : Tm} (h : Beta t u) : BetaStep (ofTm t) (ofTm u) := by
  induction h with
  | redex b a =>
    obtain ⟨hterm, hbeta⟩ := toTm_beta (isTerm_ofTm b) (isTerm_ofTm a)
    rw [toTm_ofTm, toTm_ofTm] at hbeta
    exact ⟨[], ⟨ofTm b, ofTm a, rfl⟩, by rw [← hbeta, ofTm_toTm hterm]; rfl⟩
  | lam _ ih =>
    obtain ⟨p, hp, hstep⟩ := ih
    exact ⟨false :: p, Term.redexAt_lam_cons.2 hp, congrArg Term.lam hstep⟩
  | appFun a _ ih =>
    obtain ⟨p, hp, hstep⟩ := ih
    exact ⟨false :: p, Term.redexAt_fun_cons.2 hp, by rw [ofTm, ofTm, contractAt_fun_cons, hstep]⟩
  | appArg f _ ih =>
    obtain ⟨p, hp, hstep⟩ := ih
    exact ⟨true :: p, Term.redexAt_arg_cons.2 hp, by rw [ofTm, ofTm, contractAt_arg_cons, hstep]⟩

/-- Terms of one value are convertible. -/
lemma convertible_of_val_eq {t u : Term} (ht : isTerm t = true) (hu : isTerm u = true)
    (h : val (toTm t) = val (toTm u)) : Convertible t u := by
  have hconv (v w : Tm) (hvw : Relation.EqvGen Beta v w) : Convertible (ofTm v) (ofTm w) := by
    induction hvw with
    | rel v w hstep => exact .rel _ _ (betaStep_ofTm hstep)
    | refl v => exact .refl _
    | symm v w _ ih => exact .symm _ _ ih
    | trans v w x _ _ ih₁ ih₂ => exact .trans _ _ _ ih₁ ih₂
  have htu := hconv _ _ (val_eq_iff.1 h)
  rwa [ofTm_toTm ht, ofTm_toTm hu] at htu

/-! ## Streams of bits -/

/-- `blc-true`. -/
def blcTrue : Term := .lam (.lam (.var 2))

/-- `blc-false`. -/
def blcFalse : Term := .lam (.lam (.var 1))

/-- `blc-nil`. -/
def blcNil : Term := blcFalse

/-- `blc-cons`: the value of a pair. The components are put under the binder as they are. -/
def blcCons (h t : Term) : Term := .lam (.app (.app (.var 1) h) t)

/-- `blc-bit-char->bool`. -/
def bitCharToBool (c : Char) : Except SchemeError Term :=
  if c = '0' then .ok blcTrue
  else if c = '1' then .ok blcFalse
  else raise "blc: bit character must be 0 or 1" [.char c]

/-- `blc-list-of-bits`. -/
def listOfBits (bits : List Char) (tail : Term) : Except SchemeError Term :=
  match bits with
  | [] => .ok tail
  | c :: rest => do
    let h ← bitCharToBool c
    let t ← listOfBits rest tail
    return blcCons h t

/-- `blc-encode-input`. -/
def encodeInput (programBits inputBits : List Char) : Except SchemeError Term :=
  listOfBits (programBits ++ inputBits) blcNil

lemma bitCharToBool_ok {c : Char} (hc : c = '0' ∨ c = '1') :
    bitCharToBool c = .ok (if c = '0' then blcTrue else blcFalse) := by
  rcases hc with rfl | rfl <;> rfl

/-- A string of zeros and ones becomes the nested pairs of its bits. -/
lemma listOfBits_ok {bits : List Char} (tail : Term) (hbits : ∀ c ∈ bits, c = '0' ∨ c = '1') :
    listOfBits bits tail =
      .ok (bits.foldr (fun c t => blcCons (if c = '0' then blcTrue else blcFalse) t) tail) := by
  induction bits with
  | nil => rfl
  | cons c rest ih =>
    have hrest := ih fun d hd => hbits d (List.mem_cons_of_mem c hd)
    rw [listOfBits, bitCharToBool_ok (hbits c List.mem_cons_self), hrest]
    rfl

/-- A code consists of zeros and ones. -/
lemma bit_of_mem_code {t : Term} {c : Char} (hc : c ∈ code t) : c = '0' ∨ c = '1' := by
  induction t with
  | var i =>
    rw [code, List.mem_append] at hc
    rcases hc with hc | hc
    · exact .inr (List.eq_of_mem_replicate hc)
    · exact .inl (List.mem_singleton.1 hc)
  | lam b ih =>
    simp only [code, List.cons_append, List.nil_append, List.mem_cons] at hc
    grind
  | app m n ihm ihn =>
    simp only [code, List.cons_append, List.nil_append, List.mem_cons, List.mem_append] at hc
    grind

lemma isTerm_foldr_cons (bits : List Char) :
    isTerm (bits.foldr (fun c t => blcCons (if c = '0' then blcTrue else blcFalse) t) blcNil) =
      true := by
  induction bits with
  | nil => rfl
  | cons c rest ih =>
    rw [List.foldr_cons, blcCons, isTerm, isTerm, isTerm, ih, Bool.and_true]
    split <;> rfl

/-! ## The machine -/

/-- `blc-U-bits`. -/
def uBits : List Char :=
  "01010001101000000001010110000000000111100001011111100111".toList ++
  "10000101110011110000001111000010110110111001111100001111".toList ++
  "10000101111010011101001011001110000110110000101111100001".toList ++
  "1111000011100110111101111100111101110110000110010001101000011010".toList

/-- `blc-U`. -/
def blcU : Except SchemeError Term := decode uBits

/-! ## The term behind the bits -/

namespace Machine

/-- Under the binders of `onSecond` and one for the body that was read: the function that takes
an environment and an argument and runs the body in the environment with the argument in front. -/
def abstraction : Term :=
  .lam (.lam (.app (.var 3) (.lam (.app (.app (.var 1) (.var 2)) (.var 3)))))

/-- The function that runs both parts of an application in an environment. -/
def application : Term := .lam (.app (.app (.var 3) (.var 1)) (.app (.var 2) (.var 1)))

/-- What is done once the argument of an application was read. -/
def readArgument : Term := .lam (.app (.var 4) application)

/-- What is done once the body or the function of a compound term was read. -/
def readPart : Term :=
  .lam (.app (.app (.var 2) (.app (.var 3) abstraction)) (.app (.var 4) readArgument))

/-- After a zero: the term is an abstraction or an application. -/
def compound : Term := .app (.var 3) readPart

/-- The function that looks a variable up in the tail of an environment. -/
def laterVariable : Term := .lam (.app (.var 2) (.app (.var 1) (.var 4)))

/-- After two ones: the stream from the second one on is the code of the preceding variable. -/
def readVariable : Term := .lam (.app (.app (.var 4) (.lam (.app (.var 4) laterVariable))) (.var 5))

/-- After a one: the second bit, as a boolean, selects from an environment. -/
def variableCode : Term :=
  .app (.app (.var 1) (.app (.var 2) (.lam (.app (.var 1) (.var 2))))) readVariable

/-- Receives the second bit. -/
def onSecond : Term := .lam (.app (.app (.var 5) compound) variableCode)

/-- Receives the first bit, the stream behind it, the reader and the continuation. -/
def onFirst : Term := .lam (.lam (.lam (.lam (.app (.var 3) onSecond))))

/-- The reader, from itself, a continuation and a stream: it hands the continuation the meaning
of the term at the front of the stream, and what follows. -/
def reader : Term :=
  .lam (.lam (.lam (.app (.app (.app (.var 1) onFirst) (.app (.var 3) (.var 3))) (.var 2))))

/-- The continuation of a whole program: it has no free variables to look up. -/
def start : Term := .lam (.app (.var 1) blcOmega)

/-- The universal machine. -/
def universal : Term := .app (.app (.lam (.app (.var 1) (.var 1))) reader) start

end Machine

/-- The list of a literal is compared with a list by what the literal is made of. -/
lemma toList_eq {l : List Char} {s : String} (h : String.ofList l = s) : s.toList = l := by
  rw [← h, String.toList_ofList]

lemma code_universal : code Machine.universal = uBits := by
  have hfirst : "01010001101000000001010110000000000111100001011111100111".toList =
      (code Machine.universal).take 56 := toList_eq (by rfl)
  have hsecond : "10000101110011110000001111000010110110111001111100001111".toList =
      ((code Machine.universal).drop 56).take 56 := toList_eq (by rfl)
  have hthird : "10000101111010011101001011001110000110110000101111100001".toList =
      ((code Machine.universal).drop 112).take 56 := toList_eq (by rfl)
  have hlast : "1111000011100110111101111100111101110110000110010001101000011010".toList =
      (code Machine.universal).drop 168 := toList_eq (by rfl)
  have hsplit (l : List Char) :
      l.take 56 ++ (l.drop 56).take 56 ++ (l.drop 112).take 56 ++ l.drop 168 = l := by
    rw [← List.take_add, ← List.take_add, List.take_append_drop]
  have hbits := congr (congrArg (· ++ ·)
    (congr (congrArg (· ++ ·) (congr (congrArg (· ++ ·) hfirst) hsecond)) hthird)) hlast
  exact (hbits.trans (hsplit _)).symm

/-- The bits are the code of the machine. -/
lemma blcU_eq : blcU = .ok Machine.universal := by
  have hcode : encode Machine.universal = .ok uBits :=
    encode_eq_ok.2 ⟨by decide, code_universal.symm⟩
  exact decode_eq_ok_iff_prefix.2 ⟨uBits, hcode, List.prefix_refl uBits⟩

end Blc

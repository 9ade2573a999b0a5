import Eshkol.Types.Dependent
import Mathlib.Tactic.NormNum

/-!
# When folding is exact

The exact value of an expression is a rational number. The folded value agrees with it as long as every part of the
expression is an integer of the signed range; without divisions it is the exact value wrapped into that range.
-/

namespace Types.Dependent

/-! ## Exact values -/

/-- The first integer above the signed range. -/
def signedBound : ℤ := 9223372036854775808

/-- The first integer above the unsigned range. -/
def unsignedBound : ℕ := 18446744073709551616

variable {D : Type}

/-- The value of an integer literal. -/
def IntLiteral.exact : IntLiteral → ℤ
  | .int64 v => v.toInt
  | .int32 v => v.toInt
  | .int16 v => v.toInt
  | .int8 v => v.toInt
  | .uint64 v => v.toNat
  | .uint32 v => v.toNat
  | .uint16 v => v.toNat
  | .uint8 v => v.toNat

/-- The exact value of an operation. -/
def ArithOp.exact : ArithOp → ℚ → ℚ → Option ℚ
  | .addOp, a, b => some (a + b)
  | .subOp, a, b => some (a - b)
  | .mulOp, a, b => some (a * b)
  | .divOp, a, b => if b = 0 then none else some (a / b)

/-- The operation on values that may be missing. -/
def ArithOp.exactStep (op : ArithOp) (a b : Option ℚ) : Option ℚ := a.bind fun a => b.bind fun b => op.exact a b

/-- The value of an operation without operands. -/
def ArithOp.exactNullary : ArithOp → Option ℚ
  | .addOp => some 0
  | .mulOp => some 1
  | _ => none

/-- The value of an operation with one operand. -/
def ArithOp.exactUnary : ArithOp → ℚ → Option ℚ
  | .addOp, a => some a
  | .mulOp, a => some a
  | .subOp, a => some (-a)
  | .divOp, a => if a = 0 then none else some a⁻¹

mutual

/-- What the program computes for an expression when it runs, with the values of its variables. -/
def exactValue (env : String → Option ℚ) : Ast D → Option ℚ
  | .op op [] => op.exactNullary
  | .op op [operand] => (exactValue env operand).bind op.exactUnary
  | .op op (first :: second :: rest) =>
    exactOperands env op (op.exactStep (exactValue env first) (exactValue env second)) rest
  | .literal l => some (l.exact : ℚ)
  | .var id => env id
  | .double _ => none
  | .other => none

/-- The other operands are taken from the left. -/
def exactOperands (env : String → Option ℚ) (op : ArithOp) (result : Option ℚ) : List (Ast D) → Option ℚ
  | [] => result
  | next :: rest => exactOperands env op (op.exactStep result (exactValue env next)) rest

end

/-! ## Expressions -/

mutual

/-- Integer literals, variables and operations. -/
def IntegerExpr : Ast D → Prop
  | .literal _ => True
  | .var _ => True
  | .op _ vars => AllInteger vars
  | .double _ => False
  | .other => False

def AllInteger : List (Ast D) → Prop
  | [] => True
  | e :: es => IntegerExpr e ∧ AllInteger es

end

mutual

/-- Integer literals and operations with two operands or more. -/
def Folded : Ast D → Prop
  | .op _ (first :: second :: rest) => Folded first ∧ Folded second ∧ AllFolded rest
  | .literal _ => True
  | _ => False

def AllFolded : List (Ast D) → Prop
  | [] => True
  | e :: es => Folded e ∧ AllFolded es

end

/-- An integer of the signed range, unless there is no value. -/
def InRange (value : Option ℚ) : Prop :=
  ∀ q, value = some q → ∃ z : ℤ, q = z ∧ -signedBound ≤ z ∧ z < signedBound

mutual

/-- The literals and the results of all operations are integers of the signed range. -/
def Fits (env : String → Option ℚ) : Ast D → Prop
  | .op op (first :: second :: rest) => Fits env first ∧ Fits env second ∧
    InRange (op.exactStep (exactValue env first) (exactValue env second)) ∧
    FitsOperands env op (op.exactStep (exactValue env first) (exactValue env second)) rest
  | .literal l => InRange (some (l.exact : ℚ))
  | _ => True

def FitsOperands (env : String → Option ℚ) (op : ArithOp) (result : Option ℚ) : List (Ast D) → Prop
  | [] => True
  | next :: rest => Fits env next ∧ InRange (op.exactStep result (exactValue env next)) ∧
    FitsOperands env op (op.exactStep result (exactValue env next)) rest

end

mutual

/-- No operation is a division. -/
def DivisionFree : Ast D → Prop
  | .op op vars => op ≠ .divOp ∧ AllDivisionFree vars
  | _ => True

def AllDivisionFree : List (Ast D) → Prop
  | [] => True
  | e :: es => DivisionFree e ∧ AllDivisionFree es

end

variable [ConstDoubles D]

/-! ## Literals -/

/-- A literal is wrapped into the signed range. -/
lemma toInt_toInt64 (l : IntLiteral) : l.toInt64.toInt = l.exact.bmod unsignedBound := by
  have hsigned (v : Int64) : v.toInt.bmod unsignedBound = v.toInt := by
    have hle := v.le_toInt
    have hlt := v.toInt_lt
    apply Int.bmod_eq_of_le <;> unfold unsignedBound <;> omega
  have hunsigned (n : UInt64) : n.toInt64.toInt = (n.toNat : ℤ).bmod unsignedBound := by
    rw [← Int64.toInt_toBitVec, UInt64.toBitVec_toInt64, BitVec.toInt_eq_toNat_bmod]
    rfl
  cases l <;> simp only [IntLiteral.toInt64, IntLiteral.exact]
  case int64 v => exact (hsigned v).symm
  case int32 v => rw [← Int32.toInt_toInt64, hsigned]
  case int16 v => rw [← Int16.toInt_toInt64, hsigned]
  case int8 v => rw [← Int8.toInt_toInt64, hsigned]
  case uint64 v => exact hunsigned v
  case uint32 v => rw [hunsigned, UInt32.toNat_toUInt64]
  case uint16 v => rw [hunsigned, UInt16.toNat_toUInt64]
  case uint8 v => rw [hunsigned, UInt8.toNat_toUInt64]

lemma bmod_of_inRange {z : ℤ} (hle : -signedBound ≤ z) (hlt : z < signedBound) : z.bmod unsignedBound = z := by
  unfold signedBound at hle hlt
  apply Int.bmod_eq_of_le <;> unfold unsignedBound <;> omega

/-! ## One operation -/

/-- The folded value is the exact one, or both are missing. -/
def Agree (value : ConstValue D) (exact : Option ℚ) : Prop :=
  (value = .none ∧ exact = none) ∨ ∃ v : Int64, value = .integer v ∧ exact = some (v.toInt : ℚ)

@[simp] lemma apply_none_left (op : ArithOp) (b : ConstValue D) : op.apply .none b = .none := by
  cases op
  case divOp => exact ite_self _
  all_goals rfl

@[simp] lemma apply_none_right (op : ArithOp) (a : ConstValue D) : op.apply a .none = .none := by
  cases op <;> cases a <;> rfl

/-- An operation on integers with an exact result. -/
lemma apply_integer (op : ArithOp) (a b : Int64) {z : ℤ} (hz : op.exact a.toInt b.toInt = some (z : ℚ))
    (hle : -signedBound ≤ z) (hlt : z < signedBound) :
    ∃ v : Int64, op.apply (.integer a : ConstValue D) (.integer b) = .integer v ∧ v.toInt = z := by
  have hbmod := bmod_of_inRange hle hlt
  cases op
  case addOp =>
    have hsum : a.toInt + b.toInt = z := by exact_mod_cast Option.some.inj hz
    exact ⟨a + b, rfl, by rw [Int64.toInt_add, hsum]; exact hbmod⟩
  case subOp =>
    have hdifference : a.toInt - b.toInt = z := by exact_mod_cast Option.some.inj hz
    exact ⟨a - b, rfl, by rw [Int64.toInt_sub, hdifference]; exact hbmod⟩
  case mulOp =>
    have hproduct : a.toInt * b.toInt = z := by exact_mod_cast Option.some.inj hz
    exact ⟨a * b, rfl, by rw [Int64.toInt_mul, hproduct]; exact hbmod⟩
  case divOp =>
    simp only [ArithOp.exact] at hz
    split_ifs at hz with hzero
    -- the quotient is an integer, so nothing is cut off
    have hb : b.toInt ≠ 0 := by exact_mod_cast hzero
    have hquotient : a.toInt = z * b.toInt := by
      have hq := Option.some.inj hz
      rw [div_eq_iff hzero] at hq
      exact_mod_cast hq
    refine ⟨a / b, ?_, ?_⟩
    · have hne : (b == 0) = false := by
        rw [beq_eq_false_iff_ne]
        rintro rfl
        exact hb rfl
      simp only [ArithOp.apply, ConstValue.div, ConstValue.isZero, hne, Bool.false_eq_true, if_false]
      rfl
    · rw [Int64.toInt_div, hquotient, Int.mul_tdiv_cancel _ hb]
      exact hbmod

/-- An operation whose exact result is an integer of the signed range. -/
lemma apply_agree (op : ArithOp) {a b : ConstValue D} {x y : Option ℚ} (ha : Agree a x) (hb : Agree b y)
    (hrange : InRange (op.exactStep x y)) : Agree (op.apply a b) (op.exactStep x y) := by
  rcases ha with ⟨rfl, rfl⟩ | ⟨v, rfl, rfl⟩
  · exact Or.inl ⟨apply_none_left op b, rfl⟩
  · rcases hb with ⟨rfl, rfl⟩ | ⟨w, rfl, rfl⟩
    · exact Or.inl ⟨apply_none_right op _, rfl⟩
    · have hstep : op.exactStep (some (v.toInt : ℚ)) (some (w.toInt : ℚ)) = op.exact v.toInt w.toInt := rfl
      rw [hstep] at hrange ⊢
      cases hexact : op.exact v.toInt w.toInt with
      | none =>
        refine Or.inl ⟨?_, rfl⟩
        cases op <;> simp only [ArithOp.exact, reduceCtorEq] at hexact
        split_ifs at hexact with hzero
        have hw : w = 0 := Int64.toInt_inj.1 (by exact_mod_cast hzero)
        simp [ArithOp.apply, ConstValue.div, ConstValue.isZero, hw]
      | some q =>
        obtain ⟨z, rfl, hle, hlt⟩ := hrange q hexact
        obtain ⟨result, hresult, hz⟩ := @apply_integer D _ op v w z hexact hle hlt
        exact Or.inr ⟨result, hresult, by rw [hz]⟩

/-! ## Expressions that fit -/

lemma evaluateOperands_none (op : ArithOp) (rest : List (Ast D)) :
    evaluateOperands op (.none : ConstValue D) rest = .none := by
  induction rest with
  | nil => rw [evaluateOperands]
  | cons next rest ih => simp only [evaluateOperands, apply_none_left, ih, ite_self]

omit [ConstDoubles D] in
lemma eq_none_of_not_isValid {value : ConstValue D} (h : ¬value.isValid) : value = .none := by
  cases value with
  | none => rfl
  | integer v => exact absurd rfl h
  | float v => exact absurd rfl h

/-- A value that is missing is missing to the end. -/
lemma evaluateOperands_cons (op : ArithOp) (result : ConstValue D) (next : Ast D) (rest : List (Ast D)) :
    evaluateOperands op result (next :: rest) =
      evaluateOperands op (op.apply result (evaluateConstExpr next)) rest := by
  simp only [evaluateOperands]
  split_ifs with hnext hresult
  · rw [eq_none_of_not_isValid hresult.2, evaluateOperands_none]
  · rfl
  · rw [eq_none_of_not_isValid hnext, apply_none_right, evaluateOperands_none]

lemma evaluateConstExpr_op (op : ArithOp) (first second : Ast D) (rest : List (Ast D)) :
    evaluateConstExpr (.op op (first :: second :: rest)) =
      evaluateOperands op (op.apply (evaluateConstExpr first) (evaluateConstExpr second)) rest := by
  simp only [evaluateConstExpr]
  split_ifs with hfirst hsecond hresult
  · rw [eq_none_of_not_isValid hresult.2, evaluateOperands_none]
  · rfl
  · rw [eq_none_of_not_isValid hsecond, apply_none_right, evaluateOperands_none]
  · rw [eq_none_of_not_isValid hfirst, apply_none_left, evaluateOperands_none]

omit [ConstDoubles D] in
lemma literal_agree {l : IntLiteral} (hfits : InRange (some (l.exact : ℚ))) :
    Agree (.integer l.toInt64 : ConstValue D) (some (l.exact : ℚ)) := by
  obtain ⟨z, hz, hle, hlt⟩ := hfits _ rfl
  have hexact : l.exact = z := by exact_mod_cast hz
  refine Or.inr ⟨_, rfl, ?_⟩
  rw [toInt_toInt64, hexact, bmod_of_inRange hle hlt]

mutual

/-- An expression that fits is folded to its exact value. -/
theorem evaluateConstExpr_agree (env : String → Option ℚ) :
    ∀ e : Ast D, Folded e → Fits env e → Agree (evaluateConstExpr e) (exactValue env e)
  | .op op [], hfolded, _ => by simp [Folded] at hfolded
  | .op op [_], hfolded, _ => by simp [Folded] at hfolded
  | .op op (first :: second :: rest), hfolded, hfits => by
    rw [Folded] at hfolded
    rw [Fits] at hfits
    rw [evaluateConstExpr_op, exactValue]
    exact evaluateOperands_agree env op rest hfolded.2.2 hfits.2.2.2
      (apply_agree op (evaluateConstExpr_agree env first hfolded.1 hfits.1)
        (evaluateConstExpr_agree env second hfolded.2.1 hfits.2.1) hfits.2.2.1)
  | .var _, hfolded, _ => by simp [Folded] at hfolded
  | .double _, hfolded, _ => by simp [Folded] at hfolded
  | .other, hfolded, _ => by simp [Folded] at hfolded
  | .literal l, _, hfits => by
    rw [Fits] at hfits
    rw [evaluateConstExpr, exactValue]
    exact literal_agree hfits

theorem evaluateOperands_agree (env : String → Option ℚ) (op : ArithOp) {result : ConstValue D} {exact : Option ℚ} :
    ∀ rest : List (Ast D), AllFolded rest → FitsOperands env op exact rest → Agree result exact →
      Agree (evaluateOperands op result rest) (exactOperands env op exact rest)
  | [], _, _, hresult => by
    rw [evaluateOperands, exactOperands]
    exact hresult
  | next :: rest, hfolded, hfits, hresult => by
    rw [AllFolded] at hfolded
    rw [FitsOperands] at hfits
    rw [evaluateOperands_cons, exactOperands]
    exact evaluateOperands_agree env op rest hfolded.2 hfits.2.2
      (apply_agree op hresult (evaluateConstExpr_agree env next hfolded.1 hfits.1) hfits.2.1)

end

/-! ## Expressions that are not folded -/

mutual

theorem evaluateConstExpr_not_folded : ∀ e : Ast D, IntegerExpr e → ¬Folded e → evaluateConstExpr e = .none
  | .op op [], _, _ => by rw [evaluateConstExpr]; simp
  | .op op [_], _, _ => by rw [evaluateConstExpr]; simp
  | .op op (first :: second :: rest), hinteger, hfolded => by
    rw [IntegerExpr, AllInteger, AllInteger] at hinteger
    rw [Folded] at hfolded
    rw [evaluateConstExpr_op]
    by_cases hfirst : Folded first
    · by_cases hsecond : Folded second
      · exact evaluateOperands_not_folded op _ rest hinteger.2.2 fun hrest => hfolded ⟨hfirst, hsecond, hrest⟩
      · rw [evaluateConstExpr_not_folded second hinteger.2.1 hsecond, apply_none_right, evaluateOperands_none]
    · rw [evaluateConstExpr_not_folded first hinteger.1 hfirst, apply_none_left, evaluateOperands_none]
  | .var _, _, _ => by rw [evaluateConstExpr]
  | .other, _, _ => by rw [evaluateConstExpr]
  | .double _, hinteger, _ => by simp [IntegerExpr] at hinteger
  | .literal _, _, hfolded => by simp [Folded] at hfolded

theorem evaluateOperands_not_folded (op : ArithOp) (result : ConstValue D) :
    ∀ rest : List (Ast D), AllInteger rest → ¬AllFolded rest → evaluateOperands op result rest = .none
  | [], _, hfolded => by simp [AllFolded] at hfolded
  | next :: rest, hinteger, hfolded => by
    rw [AllInteger] at hinteger
    rw [AllFolded] at hfolded
    rw [evaluateOperands_cons]
    by_cases hnext : Folded next
    · exact evaluateOperands_not_folded op _ rest hinteger.2 fun hrest => hfolded ⟨hnext, hrest⟩
    · rw [evaluateConstExpr_not_folded next hinteger.1 hnext, apply_none_right, evaluateOperands_none]

end

/-! ## Expressions without divisions -/

/-- The folded value is the exact integer wrapped into the signed range. -/
def Wrapped (value : ConstValue D) (exact : Option ℚ) : Prop :=
  ∃ (v : Int64) (z : ℤ), value = .integer v ∧ exact = some (z : ℚ) ∧ v.toInt = z.bmod unsignedBound

lemma apply_wrapped {op : ArithOp} (hop : op ≠ .divOp) {a b : ConstValue D} {x y : Option ℚ} (ha : Wrapped a x)
    (hb : Wrapped b y) : Wrapped (op.apply a b) (op.exactStep x y) := by
  obtain ⟨v, m, rfl, rfl, hv⟩ := ha
  obtain ⟨w, n, rfl, rfl, hw⟩ := hb
  cases op
  case addOp =>
    refine ⟨v + w, m + n, rfl, by simp [ArithOp.exactStep, ArithOp.exact], ?_⟩
    rw [Int64.toInt_add, hv, hw]
    exact Int.bmod_add_bmod.trans Int.add_bmod_bmod
  case subOp =>
    refine ⟨v - w, m - n, rfl, by simp [ArithOp.exactStep, ArithOp.exact], ?_⟩
    rw [Int64.toInt_sub, hv, hw]
    exact Int.bmod_sub_bmod.trans Int.sub_bmod_bmod
  case mulOp =>
    refine ⟨v * w, m * n, rfl, by simp [ArithOp.exactStep, ArithOp.exact], ?_⟩
    rw [Int64.toInt_mul, hv, hw]
    exact Int.bmod_mul_bmod.trans Int.mul_bmod_bmod
  case divOp => exact absurd rfl hop

mutual

theorem evaluateConstExpr_wrapped (env : String → Option ℚ) :
    ∀ e : Ast D, Folded e → DivisionFree e → Wrapped (evaluateConstExpr e) (exactValue env e)
  | .op op [], hfolded, _ => by simp [Folded] at hfolded
  | .op op [_], hfolded, _ => by simp [Folded] at hfolded
  | .op op (first :: second :: rest), hfolded, hfree => by
    rw [Folded] at hfolded
    rw [DivisionFree, AllDivisionFree, AllDivisionFree] at hfree
    rw [evaluateConstExpr_op, exactValue]
    exact evaluateOperands_wrapped env hfree.1 rest hfolded.2.2 hfree.2.2.2
      (apply_wrapped hfree.1 (evaluateConstExpr_wrapped env first hfolded.1 hfree.2.1)
        (evaluateConstExpr_wrapped env second hfolded.2.1 hfree.2.2.1))
  | .var _, hfolded, _ => by simp [Folded] at hfolded
  | .double _, hfolded, _ => by simp [Folded] at hfolded
  | .other, hfolded, _ => by simp [Folded] at hfolded
  | .literal l, _, _ => by
    rw [evaluateConstExpr, exactValue]
    exact ⟨_, l.exact, rfl, rfl, toInt_toInt64 l⟩

theorem evaluateOperands_wrapped (env : String → Option ℚ) {op : ArithOp} (hop : op ≠ .divOp)
    {result : ConstValue D} {exact : Option ℚ} :
    ∀ rest : List (Ast D), AllFolded rest → AllDivisionFree rest → Wrapped result exact →
      Wrapped (evaluateOperands op result rest) (exactOperands env op exact rest)
  | [], _, _, hresult => by
    rw [evaluateOperands, exactOperands]
    exact hresult
  | next :: rest, hfolded, hfree, hresult => by
    rw [AllFolded] at hfolded
    rw [AllDivisionFree] at hfree
    rw [evaluateOperands_cons, exactOperands]
    exact evaluateOperands_wrapped env hop rest hfolded.2 hfree.2
      (apply_wrapped hop hresult (evaluateConstExpr_wrapped env next hfolded.1 hfree.1))

end

/-! ## Compile-time values -/

lemma toNat_toUInt64 {v : Int64} (h : 0 ≤ v) : (v.toUInt64.toNat : ℤ) = v.toInt := by
  have hnonneg : 0 ≤ v.toInt := Int64.le_iff_toInt_le.1 h
  rw [Int64.toNat_toUInt64_of_le h]
  exact Int.toNat_of_nonneg hnonneg

/-- The doubles of the machine. -/
instance : ConstDoubles Float where
  zero := 0
  ofInt64 := Int64.toFloat
  ofUInt64 := UInt64.toFloat
  toUInt64 := Float.toUInt64
  add := (· + ·)
  sub := (· - ·)
  mul := (· * ·)
  div := (· / ·)
  eq := (· == ·)
  le a b := decide (a ≤ b)

end Types.Dependent

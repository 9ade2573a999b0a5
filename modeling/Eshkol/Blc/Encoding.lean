import Eshkol.Blc.Term

/-!
# The encoding is a prefix code that the decoder inverts

The decoder reads back exactly the code words of the terms with positive indices, whatever
follows them, and stops just after.
-/

namespace Blc

open Cursor Scheme

/-- The grammar of the encoding. -/
def code : Term → List Char
  | .var i => ones i ++ ['0']
  | .lam b => ['0', '0'] ++ code b
  | .app m n => ['0', '1'] ++ code m ++ code n

/-- Only zeros and ones are written. -/
lemma isWide_of_mem_code {t : Term} {c : Char} (h : c ∈ code t) : isWide c = false := by
  induction t with
  | var i =>
    rw [code, ones, List.mem_append, List.mem_replicate, List.mem_singleton] at h
    obtain ⟨-, rfl⟩ | rfl := h <;> rfl
  | lam b ih =>
    simp only [code, List.cons_append, List.nil_append, List.mem_cons] at h
    obtain rfl | rfl | h := h
    · rfl
    · rfl
    · exact ih h
  | app m n ihm ihn =>
    simp only [code, List.cons_append, List.nil_append, List.mem_cons, List.mem_append] at h
    obtain rfl | rfl | h | h := h
    · rfl
    · rfl
    · exact ihm h
    · exact ihn h

/-- A code stands at the front of a string where it is read there. -/
lemma code_prefix_seen {t : Term} {b : List Char} : code t <+: seen b ↔ code t <+: b :=
  prefix_seen_iff fun _ => isWide_of_mem_code

/-- The encoder succeeds on terms, with their code. -/
lemma encode_eq_ok {t : Term} {w : List Char} :
    encode t = .ok w ↔ isTerm t = true ∧ w = code t := by
  induction t generalizing w with
  | var i =>
    unfold encode isTerm code
    by_cases hi : 1 ≤ i <;> simp [hi, eq_comm]
  | lam b ih =>
    unfold encode isTerm code
    simp only [bind_eq_ok, ih, pure_eq_ok, Except.ok.injEq]
    grind
  | app m n ihm ihn =>
    unfold encode isTerm code
    simp only [bind_eq_ok, ihm, ihn, pure_eq_ok, Except.ok.injEq, Bool.and_eq_true]
    grind

/-! ## Variables -/

variable {bits : List Char} {pos len : ℕ}

lemma lt_of_getElem? {c : Char} (h : (seen bits)[pos]? = some c) : pos < bits.length := by
  simpa using (List.getElem?_eq_some_iff.1 h).1

/-- A run of ones that ends in a zero is read as the variable it counts up to. -/
lemma decodeVar_of_occursAt {k : ℕ} (count : ℤ) (hcount : count + k ≠ 0)
    (h : OccursAt (seen bits) pos (List.replicate k '1' ++ ['0'])) :
    ∃ q, decodeVar bits pos bits.length count = .ok (.var (count + k), q) ∧
      q.1 = pos + (k + 1) := by
  induction k generalizing pos count with
  | zero =>
    have hbit : (seen bits)[pos]? = some '0' := occursAt_singleton.1 h
    have hpos := lt_of_getElem? hbit
    have hzero : count ≠ 0 := by simpa using hcount
    refine ⟨⟨pos + 1, by omega⟩, ?_, rfl⟩
    rw [decodeVar, dif_neg (by omega), stringRef_eq_ok.2 hbit]
    simp [hzero]
  | succ k ih =>
    rw [List.replicate_succ, List.cons_append, occursAt_cons] at h
    obtain ⟨hbit, hrest⟩ := h
    have hpos := lt_of_getElem? hbit
    have hsum : count + 1 + (k : ℤ) = count + (k + 1 : ℕ) := by omega
    obtain ⟨q, hq, hval⟩ := ih (count + 1) (by rwa [hsum]) hrest
    refine ⟨q.weaken (Nat.le_succ pos), ?_, by rw [Beyond.weaken_val]; omega⟩
    rw [decodeVar, dif_neg (by omega), stringRef_eq_ok.2 hbit, ← hsum]
    simp [hq]

/-- What is read as a variable is a run of ones that ends in a zero. -/
lemma occursAt_of_decodeVar {count : ℤ} {t : Term} {q : Beyond pos len}
    (h : decodeVar bits pos len count = .ok (t, q)) :
    ∃ k : ℕ, count + k ≠ 0 ∧ t = .var (count + k) ∧
      OccursAt (seen bits) pos (List.replicate k '1' ++ ['0']) ∧ q.1 = pos + (k + 1) := by
  induction hn : len - pos generalizing pos count t with
  | zero =>
    rw [decodeVar, dif_pos (by omega)] at h
    exact absurd h (raise_ne_ok _ _ _)
  | succ n ih =>
    rw [decodeVar, dif_neg (by omega)] at h
    obtain ⟨c, hc, h⟩ := bind_eq_ok.1 h
    have hbit := stringRef_eq_ok.1 hc
    by_cases hone : c = '1'
    · rw [if_pos hone] at h
      obtain ⟨⟨s, p⟩, hr, h⟩ := bind_eq_ok.1 h
      obtain ⟨k, hk, rfl, hocc, hp⟩ := ih hr (by omega)
      have hsum : count + 1 + (k : ℤ) = count + (k + 1 : ℕ) := by omega
      simp only [pure_eq_ok, Except.ok.injEq, Prod.mk.injEq] at h
      obtain ⟨rfl, rfl⟩ := h
      refine ⟨k + 1, by rwa [← hsum], by rw [hsum], ?_, ?_⟩
      · rw [List.replicate_succ, List.cons_append, occursAt_cons]
        exact ⟨hone ▸ hbit, hocc⟩
      · rw [Beyond.weaken_val]
        omega
    · rw [if_neg hone] at h
      by_cases hzero : c = '0'
      · rw [if_pos hzero] at h
        by_cases hcount : count = 0
        · simp [hcount] at h
        · simp only [if_neg hcount, pure_eq_ok, Except.ok.injEq, Prod.mk.injEq] at h
          obtain ⟨rfl, hq⟩ := h
          exact ⟨0, by simpa using hcount, by simp, occursAt_singleton.2 (hzero ▸ hbit),
            by rw [← hq]⟩
      · simp [hzero] at h

/-! ## Terms -/

/-- The decoder reads the code of a term wherever it stands. -/
lemma decodeAt_of_occursAt {t : Term} (ht : isTerm t = true) (h : OccursAt (seen bits) pos (code t)) :
    ∃ q, decodeAt bits pos bits.length = .ok (t, q) ∧ q.1 = pos + (code t).length := by
  induction t generalizing pos with
  | var i =>
    have hi : 1 ≤ i := by simpa [isTerm] using ht
    have hbit : (seen bits)[pos]? = some '1' := by
      rw [code, ones, show i.toNat = (i.toNat - 1) + 1 by omega, List.replicate_succ,
        List.cons_append, occursAt_cons] at h
      exact h.1
    have hpos := lt_of_getElem? hbit
    obtain ⟨q, hq, hval⟩ := decodeVar_of_occursAt 0 (by omega) h
    rw [Int.zero_add, Int.toNat_of_nonneg (by omega)] at hq
    refine ⟨q, ?_, by simpa [code, ones] using hval⟩
    rw [decodeAt, if_neg (by omega), stringRef_eq_ok.2 hbit]
    simp [hq]
  | lam b ih =>
    rw [code, List.cons_append, List.cons_append, List.nil_append, occursAt_cons,
      occursAt_cons] at h
    obtain ⟨hbit, hbit₂, hbody⟩ := h
    have hpos := lt_of_getElem? hbit₂
    obtain ⟨q, hq, hval⟩ := ih ht hbody
    refine ⟨q.weaken (by omega), ?_, by simp [code, hval]; omega⟩
    rw [decodeAt, if_neg (by omega), stringRef_eq_ok.2 hbit]
    simp only [ok_bind, if_true]
    rw [decodeCompound, dif_neg (by omega), stringRef_eq_ok.2 hbit₂]
    simp [hq]
  | app m n ihm ihn =>
    rw [isTerm, Bool.and_eq_true] at ht
    rw [code, List.append_assoc, List.cons_append, List.cons_append, List.nil_append,
      occursAt_cons, occursAt_cons, occursAt_append] at h
    obtain ⟨hbit, hbit₂, hfun, harg⟩ := h
    have hpos := lt_of_getElem? hbit₂
    obtain ⟨⟨q, hqb⟩, hq, hqval⟩ := ihm ht.1 hfun
    obtain rfl : q = pos + 2 + (code m).length := hqval
    obtain ⟨r, hr, hrval⟩ := ihn ht.2 harg
    refine ⟨r.weaken (by omega), ?_, by simp [code, hrval]; omega⟩
    rw [decodeAt, if_neg (by omega), stringRef_eq_ok.2 hbit]
    simp only [ok_bind, if_true]
    rw [decodeCompound, dif_neg (by omega), stringRef_eq_ok.2 hbit₂]
    simp [hq, hr]

/-- What the decoder reads is the code of the term it returns. -/
lemma occursAt_of_decodeAt {t : Term} {q : Beyond pos len}
    (h : decodeAt bits pos len = .ok (t, q)) :
    isTerm t = true ∧ OccursAt (seen bits) pos (code t) ∧ q.1 = pos + (code t).length := by
  induction hn : len - pos using Nat.strong_induction_on generalizing pos t with
  | _ n ih =>
    rw [decodeAt] at h
    by_cases hlen : len ≤ pos
    · simp [hlen] at h
    rw [if_neg hlen] at h
    obtain ⟨c, hc, h⟩ := bind_eq_ok.1 h
    have hbit := stringRef_eq_ok.1 hc
    by_cases hzero : c = '0'
    · rw [if_pos hzero, decodeCompound] at h
      by_cases hlen₂ : len ≤ pos + 1
      · simp [hlen₂] at h
      rw [dif_neg hlen₂] at h
      obtain ⟨c₂, hc₂, h⟩ := bind_eq_ok.1 h
      have hbit₂ := stringRef_eq_ok.1 hc₂
      by_cases hzero₂ : c₂ = '0'
      · rw [if_pos hzero₂] at h
        obtain ⟨⟨body, p⟩, hbody, h⟩ := bind_eq_ok.1 h
        obtain ⟨hterm, hocc, hval⟩ := ih (len - (pos + 2)) (by omega) hbody rfl
        simp only [pure_eq_ok, Except.ok.injEq, Prod.mk.injEq] at h
        obtain ⟨rfl, rfl⟩ := h
        refine ⟨hterm, ?_, by rw [Beyond.weaken_val, hval, code]; simp; omega⟩
        rw [code, List.cons_append, List.cons_append, List.nil_append, occursAt_cons,
          occursAt_cons]
        exact ⟨hzero ▸ hbit, hzero₂ ▸ hbit₂, hocc⟩
      · rw [if_neg hzero₂] at h
        by_cases hone₂ : c₂ = '1'
        · rw [if_pos hone₂] at h
          obtain ⟨⟨m, p, hp⟩, hfun, h⟩ := bind_eq_ok.1 h
          obtain ⟨⟨a, r⟩, harg, h⟩ := bind_eq_ok.1 h
          obtain ⟨htm, hoccm, hvalm⟩ := ih (len - (pos + 2)) (by omega) hfun rfl
          obtain ⟨htn, hoccn, hvaln⟩ := ih (len - p) (by omega) harg rfl
          obtain rfl : p = pos + 2 + (code m).length := hvalm
          simp only [pure_eq_ok, Except.ok.injEq, Prod.mk.injEq] at h
          obtain ⟨rfl, rfl⟩ := h
          refine ⟨by simp [isTerm, htm, htn], ?_,
            by rw [Beyond.weaken_val, hvaln, code]; simp; omega⟩
          rw [code, List.append_assoc, List.cons_append, List.cons_append, List.nil_append,
            occursAt_cons, occursAt_cons, occursAt_append]
          exact ⟨hzero ▸ hbit, hone₂ ▸ hbit₂, hoccm, hoccn⟩
        · simp [hone₂] at h
    · rw [if_neg hzero] at h
      by_cases hone : c = '1'
      · rw [if_pos hone] at h
        obtain ⟨k, hk, rfl, hocc, hval⟩ := occursAt_of_decodeVar h
        have hcode : code (.var (0 + k)) = List.replicate k '1' ++ ['0'] := by simp [code, ones]
        rw [hcode]
        exact ⟨by simp [isTerm]; omega, hocc, by simpa using hval⟩
      · simp [hone] at h

/-- The decoder is its loop from the first bit. -/
lemma decode_eq_ok {b : List Char} {t : Term} :
    decode b = .ok t ↔ ∃ q, decodeAt b 0 b.length = .ok (t, q) := by
  unfold decode
  by_cases hb : b.length = 0
  · rw [if_pos hb, decodeAt, if_pos (by omega)]
    simp
  · rw [if_neg hb, bind_eq_ok]
    simp

/-- The decoder accepts exactly the strings that start with the code of a term. -/
lemma decode_eq_ok_iff_prefix {b : List Char} {t : Term} :
    decode b = .ok t ↔ ∃ w, encode t = .ok w ∧ w <+: b := by
  rw [decode_eq_ok]
  constructor
  · rintro ⟨q, hq⟩
    obtain ⟨hterm, hocc, -⟩ := occursAt_of_decodeAt hq
    exact ⟨code t, encode_eq_ok.2 ⟨hterm, rfl⟩, code_prefix_seen.1 (occursAt_zero.1 hocc)⟩
  · rintro ⟨w, hw, hstart⟩
    obtain ⟨hterm, rfl⟩ := encode_eq_ok.1 hw
    obtain ⟨q, hq, -⟩ :=
      decodeAt_of_occursAt hterm (occursAt_zero.2 (code_prefix_seen.2 hstart))
    exact ⟨q, hq⟩

/-- Decoding inverts encoding in front of any further characters and stops just after the code;
what was decoded encodes to what was read; and a string is refused exactly when no code word
starts it. -/
theorem decode_encode_prefix :
    (∀ t, isTerm t = true → ∀ r, ∃ w, encode t = .ok w ∧ decode (w ++ r) = .ok t ∧
      ∃ q, decodeAt (w ++ r) 0 (w ++ r).length = .ok (t, q) ∧ q.1 = w.length) ∧
    (∀ b t, decode b = .ok t →
      ∃ q, decodeAt b 0 b.length = .ok (t, q) ∧ encode t = .ok (b.take q.1)) ∧
    (∀ b, (∃ e, decode b = .error e) ↔ ∀ t w, encode t = .ok w → ¬ w <+: b) := by
  refine ⟨fun t ht r => ?_, fun b t h => ?_, fun b => ?_⟩
  · have hstart : code t <+: code t ++ r := List.prefix_append _ _
    have hw : encode t = .ok (code t) := encode_eq_ok.2 ⟨ht, rfl⟩
    obtain ⟨q, hq, hval⟩ := decodeAt_of_occursAt ht (occursAt_zero.2 (code_prefix_seen.2 hstart))
    exact ⟨code t, hw, decode_eq_ok_iff_prefix.2 ⟨_, hw, hstart⟩, q, hq, by simpa using hval⟩
  · obtain ⟨q, hq⟩ := decode_eq_ok.1 h
    obtain ⟨hterm, hocc, hval⟩ := occursAt_of_decodeAt hq
    refine ⟨q, hq, encode_eq_ok.2 ⟨hterm, ?_⟩⟩
    rw [hval, Nat.zero_add]
    exact (List.prefix_iff_eq_take.1 (code_prefix_seen.1 (occursAt_zero.1 hocc))).symm
  · constructor
    · rintro ⟨e, he⟩ t w hw hstart
      have hok := decode_eq_ok_iff_prefix.2 ⟨w, hw, hstart⟩
      rw [he] at hok
      cases hok
    · intro hnone
      cases hb : decode b with
      | error e => exact ⟨e, rfl⟩
      | ok t =>
        obtain ⟨w, hw, hstart⟩ := decode_eq_ok_iff_prefix.1 hb
        exact absurd hstart (hnone t w hw)

end Blc

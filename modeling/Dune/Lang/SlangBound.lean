import Dune.Lang.Slang

/-!
# The bound of the simplifier

`simplify` never makes a term larger (`size_simplifyN`), so the size of a term bounds every
recursive call made on it or on an intermediate result, and any bound from the size on gives the
same result (`simplifyN_eq`, `simplifyBlangN_eq`).
-/

namespace Dune.Lang

open List Dune.Stdune Blang

section
variable {P : Type}

attribute [local simp] Slang.size Form.size size Slang.sizeList sizeList

@[simp] theorem Slang.size_pos (t : Slang P) : 0 < t.size := by
  cases t <;> simp

@[simp] theorem Blang.size_pos (b : Blang P) : 0 < b.size := by
  cases b <;> simp

theorem Slang.size_le_of_mem {x : Slang P} : ∀ {xs : List (Slang P)}, x ∈ xs →
    x.size ≤ Slang.sizeList xs
  | y :: ys, h => by
    simp only [Slang.sizeList]
    rcases List.mem_cons.1 h with rfl | h
    · omega
    · have := Slang.size_le_of_mem h
      omega

theorem Blang.size_le_of_mem {b : Blang P} : ∀ {bs : List (Blang P)}, b ∈ bs → b.size ≤ sizeList bs
  | y :: ys, h => by
    simp only [sizeList]
    rcases List.mem_cons.1 h with rfl | h
    · omega
    · have := size_le_of_mem h
      omega

theorem Blang.sizeList_append (as bs : List (Blang P)) :
    sizeList (as ++ bs) = sizeList as + sizeList bs := by
  induction as with
  | nil => simp
  | cons a as ih => simp only [cons_append, sizeList, ih]; omega

/-! ## The combination steps do not grow their input -/

theorem survivors_congr {f g : Slang P → Slang P} {xs : List (Slang P)}
    (h : ∀ x ∈ xs, f x = g x) : survivors f xs = survivors g xs := by
  induction xs with
  | nil => rfl
  | cons x xs ih =>
    have hxs := ih fun y hy => h y (mem_cons_of_mem x hy)
    unfold survivors at hxs ⊢
    simp only [filterMap_cons, h x mem_cons_self, hxs]

theorem sizeList_survivors {f : Slang P → Slang P} {xs : List (Slang P)}
    (hf : ∀ x ∈ xs, (f x).size ≤ x.size) : Slang.sizeList (survivors f xs) ≤ Slang.sizeList xs := by
  induction xs with
  | nil => simp [survivors]
  | cons x xs ih =>
    have hx := hf x mem_cons_self
    have hxs := ih fun y hy => hf y (mem_cons_of_mem x hy)
    unfold survivors at hxs ⊢
    rw [filterMap_cons]
    cases hnil : (f x).isNil with
    | true =>
      simp only [↓reduceIte, Slang.sizeList]
      omega
    | false =>
      simp only [Bool.false_eq_true, ↓reduceIte, Slang.sizeList]
      omega

theorem size_combineConcat (loc : Loc) (xs : List (Slang P)) :
    (combineConcat loc xs).size ≤ Slang.sizeList xs + 2 := by
  match xs with
  | [] => simp [combineConcat]
  | [x] => simp only [combineConcat, Slang.sizeList]; omega
  | x :: y :: zs =>
    simp only [combineConcat]
    split
    · simp
    · simp

theorem size_combineIf [DecidableEq P] (loc : Loc) (c : Blang P) (t e : Slang P) :
    (combineIf loc c t e).size ≤ c.size + t.size + e.size + 2 := by
  unfold combineIf
  split
  · simp only [Slang.size, Form.size]; omega
  · simp only [Slang.size, Form.size, size]; omega
  · split
    · omega
    · simp

theorem size_combineCompare (op : Relop) (l r : Slang P) :
    (combineCompare op l r).size ≤ l.size + r.size + 1 := by
  unfold combineCompare
  split
  · simp
  · simp
  · split <;> simp
  · simp

theorem sizeList_dedupLoop [DecidableEq P] (acc bs : List (Blang P)) :
    sizeList (dedupLoop acc bs) ≤ sizeList acc + sizeList bs := by
  fun_induction dedupLoop acc bs with
  | case1 acc =>
    induction acc with
    | nil => simp
    | cons a acc ih =>
      simp only [reverse_cons, sizeList_append, sizeList] at ih ⊢
      omega
  | case2 | case3 =>
    simp only [sizeList] at *
    omega

variable {bs : List (Blang P)} {identity : Bool} {simp1 : Blang P → Blang P}
  {flattenNested : Blang P → Option (List (Blang P))}

theorem optionConcatMap_cons {α β : Type} {f : α → Option (List β)} {x : α} {xs : List α}
    {ys : List β} (h : optionConcatMap f (x :: xs) = some ys) :
    ∃ l rest, f x = some l ∧ optionConcatMap f xs = some rest ∧ ys = l ++ rest := by
  rw [optionConcatMap] at h
  split at h
  · cases h
  · next l hl =>
    obtain ⟨rest, hrest, rfl⟩ := Option.map_eq_some_iff.mp h
    exact ⟨l, rest, hl, hrest, rfl⟩

theorem sizeList_optionConcatMap {f : Blang P → Option (List (Blang P))} {ys : List (Blang P)}
    (hf : ∀ b ∈ bs, ∀ l, f b = some l → sizeList l ≤ b.size)
    (h : optionConcatMap f bs = some ys) : sizeList ys ≤ sizeList bs := by
  induction bs generalizing ys with
  | nil => simp only [optionConcatMap, Option.some.injEq] at h; subst h; simp
  | cons b bs ih =>
    obtain ⟨l, zs, hb, hzs, rfl⟩ := optionConcatMap_cons h
    have h1 := hf b mem_cons_self l hb
    have h2 := ih (fun c hc => hf c (mem_cons_of_mem b hc)) hzs
    rw [sizeList_append]
    simp only [sizeList]
    omega

theorem size_filterConst {b : Blang P} {l : List (Blang P)} (h : filterConst identity b = some l) :
    sizeList l ≤ b.size := by
  unfold filterConst at h
  split at h
  · split at h
    · cases h; simp
    · cases h
  · cases h; simp

/-- The elements that `flatten_nested` extracts are no larger than the term they come from. -/
def FlattenOk (flattenNested : Blang P → Option (List (Blang P))) : Prop :=
  ∀ b l, flattenNested b = some l → sizeList l ≤ b.size

theorem flattenAnd_ok : FlattenOk (flattenAnd (P := P)) := by
  intro b l h
  unfold flattenAnd at h
  split at h
  · cases h; simp
  · cases h

theorem flattenOr_ok : FlattenOk (flattenOr (P := P)) := by
  intro b l h
  unfold flattenOr at h
  split at h
  · cases h; simp
  · cases h

theorem flattenAndAbsorb_ok : FlattenOk (flattenAndAbsorb (P := P)) := by
  intro b l h
  unfold flattenAndAbsorb at h
  split at h
  · cases h; simp only [size, Slang.size, Form.size]; omega
  · cases h

theorem flattenOrAbsorb_ok : FlattenOk (flattenOrAbsorb (P := P)) := by
  intro b l h
  unfold flattenOrAbsorb at h
  split at h
  · cases h; simp only [size, Slang.size, Form.size]; omega
  · cases h

theorem size_simplifyBlangs [DecidableEq P] {ys : List (Blang P)} (hflat : FlattenOk flattenNested)
    (hs : ∀ b ∈ bs, (simp1 b).size ≤ b.size)
    (h : simplifyBlangs simp1 flattenNested identity bs = some ys) : sizeList ys ≤ sizeList bs := by
  unfold simplifyBlangs at h
  obtain ⟨zs, hzs, rfl⟩ := Option.map_eq_some_iff.1 h
  have h1 := sizeList_dedupLoop [] zs
  have h2 : sizeList zs ≤ sizeList bs := by
    refine sizeList_optionConcatMap ?_ hzs
    intro b hb l hl
    have h3 := sizeList_optionConcatMap (fun c _ l hl => size_filterConst hl) hl
    refine Nat.le_trans h3 (Nat.le_trans ?_ (hs b hb))
    cases hfl : flattenNested (simp1 b) with
    | none => simp
    | some l => exact hflat _ _ hfl
  simp only [sizeList] at h1
  omega

theorem size_combineAbsorb [DecidableEq P] {loc : Loc} {absorb : List (Blang P) → Form P}
    (habs : ∀ l, (absorb l).size = sizeList l + 2) (hflat : FlattenOk flattenNested)
    (hs : ∀ b ∈ bs, (simp1 b).size ≤ b.size) :
    (combineAbsorb loc identity absorb (simplifyBlangs simp1 flattenNested identity bs)).size ≤
      sizeList bs + 3 := by
  cases h : simplifyBlangs simp1 flattenNested identity bs with
  | none => simp [combineAbsorb]
  | some ys =>
    have := size_simplifyBlangs hflat hs h
    match ys with
    | [] => simp [combineAbsorb]
    | [b] =>
      simp only [sizeList, combineAbsorb, Slang.size, Form.size] at *
      omega
    | b :: c :: ds =>
      simp only [combineAbsorb, Slang.size, habs]
      omega

theorem size_combineConnective [DecidableEq P] {connect : List (Blang P) → Blang P}
    (hcon : ∀ l, (connect l).size = sizeList l + 1) (hflat : FlattenOk flattenNested)
    (hs : ∀ b ∈ bs, (simp1 b).size ≤ b.size) :
    (combineConnective identity connect (simplifyBlangs simp1 flattenNested identity bs)).size ≤
      sizeList bs + 1 := by
  cases h : simplifyBlangs simp1 flattenNested identity bs with
  | none => simp [combineConnective]
  | some ys =>
    have := size_simplifyBlangs hflat hs h
    match ys with
    | [] => simp [combineConnective]
    | [b] =>
      simp only [sizeList, combineConnective] at *
      omega
    | b :: c :: ds =>
      simp only [combineConnective, hcon]
      omega

section
variable [DecidableEq P]

variable {n : Nat} {s : Slang P}

theorem size_expr_aux (h : s.isPlainExpr) (iht : ∀ t : Slang P, (simplifyN n t).size ≤ t.size)
    (ihb : ∀ b : Blang P, (simplifyBlangN n b).size ≤ b.size) :
    (simplifyBlangN (n + 1) (.expr s)).size ≤ (expr s).size := by
  have hs := iht s
  rw [simplifyBlangN_expr h]
  simp only [size]
  unfold combineExpr
  split
  · simp
  · rename_i b heq
    rw [heq] at hs
    have := ihb b
    simp only [Slang.size, Form.size] at hs
    omega
  · simp only [size]; omega

theorem size_simplify_both (n : Nat) :
    (∀ t : Slang P, (simplifyN n t).size ≤ t.size) ∧
      (∀ b : Blang P, (simplifyBlangN n b).size ≤ b.size) := by
  induction n with
  | zero => exact ⟨fun t => by simp [simplifyN], fun b => by simp [simplifyBlangN]⟩
  | succ n ih =>
    obtain ⟨iht, ihb⟩ := ih
    refine ⟨fun t => ?_, fun b => ?_⟩
    · rcases t with _ | _ | sw | ⟨loc, f⟩
      · simp [simplifyN]
      · simp [simplifyN]
      · simp [simplifyN]
      · cases f with
        | concat xs =>
          simp only [simplifyN, Slang.size, Form.size]
          refine Nat.le_trans (size_combineConcat loc _) ?_
          have := sizeList_survivors (f := simplifyN n) fun (x : Slang P) (_ : x ∈ xs) => iht x
          exact Nat.add_le_add_right this 2
        | when_ c t =>
          have hc := ihb c
          have ht := iht t
          simp only [simplifyN, Slang.size, Form.size]
          split
          · omega
          · simp
          · split
            · simp
            · simp only [Slang.size, Form.size]; omega
        | if_ c t e =>
          have hc := ihb c
          have ht := iht t
          have he := iht e
          simp only [simplifyN, Slang.size, Form.size]
          split
          · omega
          · omega
          · have := size_combineIf loc (simplifyBlangN n c) (simplifyN n t) (simplifyN n e)
            omega
        | hasUndefinedVar t =>
          have ht := iht t
          have := t.size_pos
          simp only [simplifyN, Slang.size, Form.size]
          split
          · simp only [Slang.size, Form.size, size]; omega
          · simp only [Slang.size, Form.size]; omega
        | catchUndefinedVar v f =>
          have hv := iht v
          have hf := iht f
          simp only [simplifyN, Slang.size, Form.size]
          split
          · rename_i h
            rw [h] at hv
            simp only [Slang.size, Form.size, size] at hv ⊢
            omega
          · simp only [Slang.size, Form.size]; omega
        | andAbsorbUndefinedVar bs =>
          exact size_combineAbsorb (fun _ => rfl) flattenAndAbsorb_ok fun b _ => ihb b
        | orAbsorbUndefinedVar bs =>
          exact size_combineAbsorb (fun _ => rfl) flattenOrAbsorb_ok fun b _ => ihb b
        | blang b =>
          have := ihb b
          simp only [simplifyN, Slang.size, Form.size]
          omega
    · cases b with
      | const b => simp [simplifyBlangN]
      | not b =>
        have := ihb b
        simp only [simplifyBlangN]
        split
        · simp
        · rename_i h
          rw [h] at this
          simp only [size] at this ⊢
          omega
        · simp only [size]; omega
      | expr s =>
        rcases s with _ | _ | sw | ⟨loc, f⟩
        · exact size_expr_aux rfl iht ihb
        · simp [simplifyBlangN]
        · simp only [simplifyBlangN]
          split <;> simp
        · cases f with
          | blang b =>
            have := ihb b
            simp only [simplifyBlangN, size, Slang.size, Form.size]
            omega
          | _ => exact size_expr_aux rfl iht ihb
      | and bs => exact size_combineConnective (fun _ => rfl) flattenAnd_ok fun b _ => ihb b
      | or bs => exact size_combineConnective (fun _ => rfl) flattenOr_ok fun b _ => ihb b
      | compare op l r =>
        have hl := iht l
        have hr := iht r
        have := size_combineCompare op (simplifyN n l) (simplifyN n r)
        simp only [simplifyBlangN, size]
        omega

/-! ## The bound does not matter -/

theorem optionConcatMap_congr {α β : Type} {f g : α → Option (List β)} {xs : List α}
    (h : ∀ x ∈ xs, f x = g x) : optionConcatMap f xs = optionConcatMap g xs := by
  induction xs with
  | nil => rfl
  | cons x xs ih =>
    simp only [optionConcatMap]
    rw [h x mem_cons_self, ih fun y hy => h y (mem_cons_of_mem x hy)]

theorem simplifyBlangs_congr {f g : Blang P → Blang P}
    (h : ∀ b ∈ bs, f b = g b) :
    simplifyBlangs f flattenNested identity bs = simplifyBlangs g flattenNested identity bs := by
  unfold simplifyBlangs
  congr 1
  refine optionConcatMap_congr fun b hb => ?_
  simp only [h b hb]

theorem simplifyBlangN_expr_congr (h : s.isPlainExpr) (hs : simplifyN (n + 1) s = simplifyN n s)
    (hb : ∀ b : Blang P, b.size ≤ s.size → simplifyBlangN (n + 1) b = simplifyBlangN n b) :
    simplifyBlangN (n + 2) (.expr s) = simplifyBlangN (n + 1) (.expr s) := by
  have hsize := (size_simplify_both n).1 s
  rw [simplifyBlangN_expr h, simplifyBlangN_expr h, hs]
  unfold combineExpr
  split
  · rfl
  · rename_i b heq
    rw [heq] at hsize
    simp only [Slang.size, Form.size] at hsize
    exact hb b (by omega)
  · rfl

theorem simplify_succ (n : Nat) :
    (∀ t : Slang P, t.size ≤ n → simplifyN (n + 1) t = simplifyN n t) ∧
      (∀ b : Blang P, b.size ≤ n → simplifyBlangN (n + 1) b = simplifyBlangN n b) := by
  induction n with
  | zero =>
    refine ⟨fun t hn => ?_, fun b hn => ?_⟩
    · have := t.size_pos; omega
    · have := b.size_pos; omega
  | succ n ih =>
    obtain ⟨iht, ihb⟩ := ih
    have hbs : ∀ {flattenNested identity} (bs : List (Blang P)), sizeList bs ≤ n →
        simplifyBlangs (simplifyBlangN (n + 1)) flattenNested identity bs =
          simplifyBlangs (simplifyBlangN n) flattenNested identity bs := fun _ h =>
      simplifyBlangs_congr fun b hb => ihb b ((size_le_of_mem hb).trans h)
    refine ⟨fun t hn => ?_, fun b hn => ?_⟩
    · rcases t with _ | _ | sw | ⟨loc, f⟩
      · rfl
      · rfl
      · rfl
      · simp only [Slang.size] at hn
        cases f with simp only [Form.size] at hn
        | concat xs =>
          simp only [simplifyN]
          rw [survivors_congr fun x hx => ?_]
          have := Slang.size_le_of_mem hx
          exact iht x (by omega)
        | when_ c t => simp only [simplifyN, ihb c (by omega), iht t (by omega)]
        | if_ c t e =>
          simp only [simplifyN, ihb c (by omega), iht t (by omega), iht e (by omega)]
        | hasUndefinedVar t => simp only [simplifyN, iht t (by omega)]
        | catchUndefinedVar v f => simp only [simplifyN, iht v (by omega), iht f (by omega)]
        | andAbsorbUndefinedVar bs | orAbsorbUndefinedVar bs =>
          simp only [simplifyN, hbs bs (by omega)]
        | blang b => simp only [simplifyN, ihb b (by omega)]
    · cases b with simp only [size] at hn
      | const b => rfl
      | not b => simp only [simplifyBlangN, ihb b (by omega)]
      | expr s =>
        have hs : simplifyN (n + 1) s = simplifyN n s := iht s (by omega)
        -- the second pass runs on a term no larger than `s`, so both bounds cover it
        have hb : ∀ b : Blang P, b.size ≤ s.size → simplifyBlangN (n + 1) b = simplifyBlangN n b :=
          fun b hb => ihb b (by omega)
        rcases s with _ | _ | sw | ⟨loc, f⟩
        · exact simplifyBlangN_expr_congr rfl hs hb
        · rfl
        · rfl
        · cases f with
          | blang b =>
            simp only [Slang.size, Form.size] at hb
            simp only [simplifyBlangN, hb b (by omega)]
          | _ => exact simplifyBlangN_expr_congr rfl hs hb
      | and bs | or bs => simp only [simplifyBlangN, hbs bs (by omega)]
      | compare op l r => simp only [simplifyBlangN, iht l (by omega), iht r (by omega)]

theorem simplifyN_eq {t : Slang P} (h : t.size ≤ n) : simplifyN n t = t.simplify := by
  induction n, h using Nat.le_induction with
  | base => rfl
  | succ n hn ih => rw [(simplify_succ n).1 t hn, ih]

theorem simplifyBlangN_eq {b : Blang P} (h : b.size ≤ n) : simplifyBlangN n b = b.simplify := by
  induction n, h using Nat.le_induction with
  | base => rfl
  | succ n hn ih => rw [(simplify_succ n).2 b hn, ih]

end

end

end Dune.Lang

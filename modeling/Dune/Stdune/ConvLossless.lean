import Dune.Stdune.Conv

/-!
# Values that survive a conversion

`Conv.Lossless version c a` says what the value `a` needs of the description `c` to be read back
after it has been written: the functions of an iso are inverse at the value, an enumeration has
it, the fields of a record have different names. It is a condition on the description alone, and
it is enough (`Conv.ofSexp_toSexp`).

A description of fields reads its own names and leaves the others: what is read is determined by
the bindings of these names, and what is left is without them.
-/

open List (mem_append_right mem_append_left)

namespace Dune.Stdune

open Bytes Conv RecordBuilder

attribute [local instance] byteOrder

variable {α : Type}

theorem ok_bind {ε β : Type} (a : α) (f : α → Except ε β) : (Except.ok a >>= f) = f a := rfl

/-! ## Fields -/

variable {a b t acc f ctx : ConvFields} {names names' : List Bytes}

namespace ConvFields

@[ext] theorem ext (h : ∀ n, a.find n = b.find n) : a = b := by
  cases a with
  | mk as ha =>
    cases b with
    | mk bs hb =>
      obtain rfl : as = bs := ha.ext hb h
      rfl

section

variable (t : ConvFields)

def without (names : List Bytes) : ConvFields :=
  ⟨t.bindings.filter fun b => b.1 ∉ names, t.sorted.filter _⟩

theorem find_filter (p : Bytes → Bool) (m : List (Bytes × Csexp)) (n : Bytes) :
    Map.find (m.filter fun b => p b.1) n = if p n then Map.find m n else none := by
  induction m with
  | nil => simp
  | cons b m ih =>
    rw [List.filter_cons, Map.find_cons]
    by_cases hn : b.1 = n
    · subst hn
      rw [if_pos rfl]
      split_ifs with hb
      · rw [Map.find_cons, if_pos rfl]
      · rw [ih, if_neg hb]
    · rw [if_neg hn, ← ih]
      split_ifs
      · rw [Map.find_cons, if_neg hn]
      · rfl

theorem find_without (names : List Bytes) (n : Bytes) :
    (t.without names).find n = if n ∈ names then none else t.find n := by
  have hfilter := find_filter (fun n => n ∉ names) t.bindings n
  simp only [without, find]
  rw [hfilter]
  by_cases hn : n ∈ names <;> simp [hn]

@[simp] theorem find_empty (n : Bytes) : empty.find n = none := rfl

theorem find_ofField (name : Bytes) (s : Csexp) (n : Bytes) :
    (ofField name s).find n = if name = n then some s else none := by
  by_cases hn : name = n <;> simp [ofField, find, Map.find_singleton, hn]

theorem remove_eq_without (name : Bytes) : t.remove name = t.without [name] := by
  ext1 n
  rw [find_without, remove, find, find_filter (fun n => n != name)]
  by_cases hn : n = name <;> simp [hn, find]

theorem without_nil : t.without [] = t := by
  ext1 n
  rw [find_without, if_neg List.not_mem_nil]

theorem without_append (names names' : List Bytes) :
    (t.without names).without names' = t.without (names ++ names') := by
  ext1 n
  simp only [find_without, List.mem_append]
  by_cases hn : n ∈ names <;> by_cases hn' : n ∈ names' <;> simp [hn, hn']

end

theorem without_congr (h : ∀ n, t.find n ≠ none → (n ∈ names ↔ n ∈ names')) :
    t.without names = t.without names' := by
  ext1 n
  rw [find_without, find_without]
  by_cases hn : t.find n = none
  · simp [hn]
  · simp only [h n hn]

theorem merge_ok (h : ∀ n, a.find n ≠ none → b.find n = none) :
    ∃ c, a.merge b = .ok c ∧ ∀ n, c.find n = (a.find n).or (b.find n) := by
  have hdisjoint : ¬ a.bindings.any (fun x => (b.find x.1).isSome) = true := by
    rw [List.any_eq_true]
    rintro ⟨x, hx, hsome⟩
    have ha : a.find x.1 ≠ none := by
      rw [find, a.sorted.find_of_mem hx]
      exact Option.some_ne_none _
    rw [h x.1 ha] at hsome
    cases hsome
  refine ⟨_, if_neg hdisjoint, fun n => ?_⟩
  refine (Map.find_union n).trans ?_
  change _ = (Map.find a.bindings n).or (Map.find b.bindings n)
  have hn := h n
  simp only [find] at hn
  cases ha : Map.find a.bindings n with
  | none => cases Map.find b.bindings n <;> rfl
  | some x =>
    rw [hn (by simp [ha])]
    rfl

def insert (t : ConvFields) (b : Bytes × Csexp) : ConvFields :=
  ⟨Map.set b.1 b.2 t.bindings, t.sorted.set b.1 b.2⟩

theorem find_insert (t : ConvFields) (b : Bytes × Csexp) (n : Bytes) :
    (t.insert b).find n = if b.1 = n then some b.2 else t.find n := by
  rw [insert, find, Map.find_set]
  by_cases hn : b.1 = n <;> simp [hn, find]

theorem ofListLoop_cons {b : Bytes × Csexp} (h : acc.find b.1 = none) (l : List Csexp) :
    ofListLoop acc (bindingToSexp b :: l) = ofListLoop (acc.insert b) l := by
  rw [bindingToSexp, ofListLoop]
  change (if (acc.find b.1).isSome = true then _ else _) = _
  rw [h]
  rfl

theorem ofListLoop_bindings {bs : List (Bytes × Csexp)} (hnodup : (bs.map Prod.fst).Nodup)
    (hnew : ∀ b ∈ bs, acc.find b.1 = none) :
    ∃ t, ofListLoop acc (bs.map bindingToSexp) = .ok (.ok t) ∧
      ∀ n, t.find n = (acc.find n).or (Map.find bs n) := by
  induction bs generalizing acc with
  | nil => exact ⟨acc, rfl, fun n => by simp⟩
  | cons b bs ih =>
    obtain ⟨hb, hbs⟩ := List.forall_mem_cons.mp hnew
    rw [List.map_cons, List.nodup_cons] at hnodup
    have hnew' : ∀ c ∈ bs, (acc.insert b).find c.1 = none := by
      intro c hc
      have hne : b.1 ≠ c.1 := fun heq => hnodup.1 (heq ▸ List.mem_map_of_mem hc)
      rw [find_insert, if_neg hne, hbs c hc]
    obtain ⟨t, hloop, hfind⟩ := ih hnodup.2 hnew'
    refine ⟨t, ?_, fun n => ?_⟩
    · rw [List.map_cons, ofListLoop_cons hb, hloop]
    · rw [hfind, find_insert, Map.find_cons]
      split_ifs with hn
      · rw [← hn, hb]
        rfl
      · rfl

theorem ofSexp_toSexp (t : ConvFields) : ofSexp t.toSexp = .ok t := by
  obtain ⟨u, hloop, hfind⟩ := @ofListLoop_bindings empty t.bindings t.sorted.nodup_keys
    fun _ _ => find_empty _
  have hu : u = t := by
    ext1 n
    rw [hfind, find_empty]
    rfl
  rw [toSexp, ofSexp, hloop, hu]
  rfl

theorem checkEmpty_ok (h : ∀ n, t.find n = none) : t.checkEmpty = .ok () := by
  have hempty : t = empty := by
    ext1 n
    rw [h, find_empty]
  rw [hempty]
  rfl

end ConvFields

/-! ## Lossless descriptions -/

mutual

def Conv.names {α : Type} {k : ConvKind} : Conv α k → List Bytes
  | .fieldRequired name _ => [name]
  | .fieldOptional name _ => [name]
  | .both x y => x.names ++ y.names
  | .either x y => x.names ++ y.names
  | .iso t _ _ => t.names
  | .isoResult t _ _ => t.names
  | .version t _ _ => t.names
  | .recordFields builder => builder.names
  | .string => []
  | .int => []
  | .unit => []
  | .char => []
  | .sexp => []
  | .list _ => []
  | @Conv.enum _ _ _ => []
  | .sum _ _ _ _ => []
  | .pair _ _ => []
  | .triple _ _ _ => []
  | .record _ => []

def RecordBuilder.names {ρ κ : Type} : RecordBuilder ρ κ → List Bytes
  | .make _ => []
  | .add builder fields _ => builder.names ++ fields.names

end

/-- The constructor of a record applied to its fields. -/
def RecordBuilder.build {ρ κ : Type} : RecordBuilder ρ κ → ρ → κ
  | .make constructor, _ => constructor
  | .add builder _ get, value => builder.build value (get value)

/-- No name is in both lists. -/
abbrev Apart (names names' : List Bytes) : Prop := ∀ n ∈ names, n ∉ names'

/-- Fields that agree on some names. -/
def ConvFields.Agree (names : List Bytes) (a b : ConvFields) : Prop :=
  ∀ n ∈ names, a.find n = b.find n

mutual

/-- What a value needs of its description to be read back. -/
def Conv.Lossless (version : ConvVersion) {α : Type} {k : ConvKind} : Conv α k → α → Prop
  | .string, _ => True
  | .int, a => intOfString (decimalInt a) = some a
  | .unit, _ => True
  | .char, _ => True
  | .sexp, _ => True
  | .iso t f g, a => f (g a) = .ok a ∧ t.Lossless version (g a)
  | .isoResult t f g, a => f (g a) = .ok a ∧ t.Lossless version (g a)
  | .version t since until_, a => checkVersion version since until_ = .ok () ∧ t.Lossless version a
  | .both x y, a =>
    Apart x.names y.names ∧ x.Lossless version a.1 ∧ y.Lossless version a.2
  | .list t, a => ∀ x ∈ a, t.Lossless version x
  | .fieldRequired _ t, a => t.Lossless version a
  | .fieldOptional _ t, a => ∀ x ∈ a, t.Lossless version x
  | @Conv.enum _ _ choices, a => ∃ name, enumName choices a = some name ∧
      enumValue choices name = some a
  | .sum name arg inj case, a =>
    (arg (case a).1).Lossless version (case a).2 ∧ inj (case a).1 (case a).2 = a ∧
      constrIndex name (name (case a).1) = some (case a).1
  | .pair x y, a => x.Lossless version a.1 ∧ y.Lossless version a.2
  | .triple x y z, a =>
    x.Lossless version a.1 ∧ y.Lossless version a.2.1 ∧ z.Lossless version a.2.2
  | .either x y, a =>
    match a with
    | .inl a => x.Lossless version a
    | .inr b => y.Lossless version b ∧ ∀ f ctx, y.write b = .ok f →
        ctx.Agree (x.names ++ y.names) f → ∃ e, x.read version ctx = .error (.ofSexp e)
  | .record r, a => r.Lossless version a
  | .recordFields builder, a => builder.build a = a ∧ builder.Lossless version a

/-- What the fields of a record need to be read back. -/
def RecordBuilder.Lossless (version : ConvVersion) {ρ κ : Type} : RecordBuilder ρ κ → ρ → Prop
  | .make _, _ => True
  | .add builder fields get, value =>
    Apart builder.names fields.names ∧ builder.Lossless version value ∧
      fields.Lossless version (get value)

end

/-! ## Reading back -/

attribute [local simp] Conv.write Conv.read Conv.names Conv.Lossless
attribute [local simp] RecordBuilder.write RecordBuilder.read RecordBuilder.names
attribute [local simp] RecordBuilder.Lossless

/-- A value is read back from what it is written as; fields are read back among others. -/
def Conv.RoundTrips (version : ConvVersion) {α : Type} : {k : ConvKind} → Conv α k → α → Prop
  | .values, c, a => ∃ s, c.write a = .ok s ∧ c.read version s = .ok (a, ())
  | .fields, c, a => ∃ f, c.write a = .ok f ∧ (∀ n, f.find n ≠ none → n ∈ c.names) ∧
      ∀ ctx : ConvFields, ctx.Agree c.names f →
        c.read version ctx = .ok (a, ctx.without c.names)

/-- The fields of a record are read back as its constructor applied to them. -/
def RecordBuilder.RoundTrips (version : ConvVersion) {ρ κ : Type} (b : RecordBuilder ρ κ)
    (value : ρ) : Prop :=
  ∃ f, b.write value = .ok f ∧ (∀ n, f.find n ≠ none → n ∈ b.names) ∧
    ∀ ctx : ConvFields, ctx.Agree b.names f →
      b.read version ctx = .ok (b.build value, ctx.without b.names)

section
variable {version : ConvVersion} {α β γ : Type}

theorem merge_agree {f' : ConvFields} (hdisjoint : Apart names names')
    (hf : ∀ n, f.find n ≠ none → n ∈ names) (hf' : ∀ n, f'.find n ≠ none → n ∈ names') :
    ∃ m, f.merge f' = .ok m ∧ (∀ n, m.find n ≠ none → n ∈ names ++ names') ∧
      ∀ ctx : ConvFields, ctx.Agree (names ++ names') m →
        ctx.Agree names f ∧ (ctx.without names).Agree names' f' := by
  have hnone : ∀ n ∈ names, f'.find n = none := by
    intro n hn
    by_contra hne
    exact hdisjoint n hn (hf' n hne)
  obtain ⟨m, hmerge, hfind⟩ := ConvFields.merge_ok fun n hn => hnone n (hf n hn)
  refine ⟨m, hmerge, fun n hn => ?_, fun ctx hctx => ⟨fun n hn => ?_, fun n hn => ?_⟩⟩
  · rw [hfind] at hn
    by_cases hfn : f.find n = none
    · rw [hfn, Option.none_or] at hn
      exact mem_append_right _ (hf' n hn)
    · exact mem_append_left _ (hf n hfn)
  · rw [hctx n (mem_append_left _ hn), hfind, hnone n hn, Option.or_none]
  · have hnot : n ∉ names := fun h => hdisjoint n h hn
    have hfn : f.find n = none := by
      by_contra hne
      exact hnot (hf n hne)
    rw [ConvFields.find_without, if_neg hnot, hctx n (mem_append_right _ hn), hfind, hfn,
      Option.none_or]

variable {k : ConvKind} {t : Conv α k} {b : β} {a : α} {x : Conv α .fields} {y : Conv β .fields}
  {name : Bytes} {ρ : Type}

theorem Conv.roundTrips_iso {f : α → Except ConvExn β} {g : β → α} (hfg : f (g b) = .ok b)
    (h : t.RoundTrips version (g b)) : (iso t f g).RoundTrips version b := by
  cases k with
  | values =>
    obtain ⟨s, hwrite, hread⟩ := h
    refine ⟨s, hwrite, ?_⟩
    rw [read, hread]
    simp only [ok_bind]
    rw [hfg]
    rfl
  | fields =>
    obtain ⟨s, hwrite, hnames, hread⟩ := h
    refine ⟨s, hwrite, hnames, fun ctx hctx => ?_⟩
    rw [read, hread ctx hctx]
    simp only [ok_bind]
    rw [hfg]
    rfl

theorem Conv.roundTrips_isoResult_iff {f : α → Except ConvExn β} {g : β → α} :
    (isoResult t f g).RoundTrips version b ↔
      (iso t f g).RoundTrips version b := by
  cases k <;> simp only [Conv.RoundTrips, write, read, names]

theorem Conv.roundTrips_version {since : ConvVersion} {until_ : Option ConvVersion}
    (hversion : checkVersion version since until_ = .ok ()) (h : t.RoundTrips version a) :
    (Conv.version t since until_).RoundTrips version a := by
  cases k with
  | values =>
    obtain ⟨s, hwrite, hread⟩ := h
    refine ⟨s, hwrite, ?_⟩
    rw [Conv.read, hversion]
    exact hread
  | fields =>
    obtain ⟨s, hwrite, hnames, hread⟩ := h
    refine ⟨s, hwrite, hnames, fun ctx hctx => ?_⟩
    rw [Conv.read, hversion]
    exact hread ctx hctx

theorem Conv.roundTrips_both {a : α × β} (hdisjoint : Apart x.names y.names)
    (hx : x.RoundTrips version a.1) (hy : y.RoundTrips version a.2) :
    (both x y).RoundTrips version a := by
  obtain ⟨f, hwrite, hnames, hread⟩ := hx
  obtain ⟨f', hwrite', hnames', hread'⟩ := hy
  obtain ⟨m, hmerge, hm, hagree⟩ := merge_agree hdisjoint hnames hnames'
  refine ⟨m, ?_, hm, fun ctx hctx => ?_⟩
  · rw [write, hwrite, hwrite']
    exact hmerge
  · obtain ⟨hctx, hctx'⟩ := hagree ctx hctx
    rw [read, hread ctx hctx]
    simp only [ok_bind]
    rw [hread' _ hctx', ConvFields.without_append]
    rfl

theorem Conv.roundTrips_list {t : Conv α .values} {l : List α}
    (h : ∀ a ∈ l, t.RoundTrips version a) : (list t).RoundTrips version l := by
  have hmap : ∃ ss, l.mapM t.write = .ok ss ∧
      ss.mapM (fun x => do return (← t.read version x).1) = .ok l := by
    induction l with
    | nil => exact ⟨[], rfl, rfl⟩
    | cons a l ih =>
      obtain ⟨ha, hl⟩ := List.forall_mem_cons.mp h
      obtain ⟨s, hwrite, hread⟩ := ha
      obtain ⟨ss, hwrites, hreads⟩ := ih hl
      refine ⟨s :: ss, ?_, ?_⟩
      · rw [List.mapM_cons, hwrite, hwrites]
        rfl
      · rw [List.mapM_cons, hread, hreads]
        rfl
  obtain ⟨ss, hwrite, hread⟩ := hmap
  refine ⟨.list ss, ?_, ?_⟩
  · rw [write, hwrite]
    rfl
  · rw [read]
    simp only [hread]
    rfl

theorem mem_of_find_ofField {n : Bytes} {s : Csexp}
    (h : (ConvFields.ofField name s).find n ≠ none) : n ∈ [name] := by
  rw [ConvFields.find_ofField] at h
  by_contra hne
  have hname : name ≠ n := fun heq => hne (List.mem_singleton.mpr heq.symm)
  exact h (if_neg hname)

theorem find_of_agree_ofField {s : Csexp} (h : ctx.Agree [name] (.ofField name s)) :
    ctx.find name = some s := by
  rw [h name (List.mem_singleton_self _), ConvFields.find_ofField, if_pos rfl]

theorem Conv.roundTrips_fieldRequired {t : Conv α .values} (h : t.RoundTrips version a) :
    (fieldRequired name t).RoundTrips version a := by
  obtain ⟨s, hwrite, hread⟩ := h
  refine ⟨.ofField name s, ?_, fun n => mem_of_find_ofField, fun ctx hctx => ?_⟩
  · rw [write, hwrite]
    rfl
  · rw [read, ConvFields.required, ConvFields.optional, find_of_agree_ofField hctx]
    simp only [ok_bind]
    rw [hread, ConvFields.remove_eq_without]
    rfl

theorem Conv.roundTrips_fieldOptional {t : Conv α .values} {a : Option α}
    (h : ∀ x ∈ a, t.RoundTrips version x) : (fieldOptional name t).RoundTrips version a := by
  cases a with
  | none =>
    refine ⟨.empty, rfl, fun n hn => absurd (ConvFields.find_empty n) hn, fun ctx hctx => ?_⟩
    have hfind : ctx.find name = none := hctx name (List.mem_singleton_self _)
    have hwithout : ctx.without [name] = ctx.without [] := by
      refine ConvFields.without_congr fun n hn => iff_of_false ?_ List.not_mem_nil
      intro hmem
      exact hn (List.mem_singleton.mp hmem ▸ hfind)
    rw [read, ConvFields.optional, hfind, names, hwithout, ConvFields.without_nil]
  | some a =>
    obtain ⟨s, hwrite, hread⟩ := h a rfl
    refine ⟨.ofField name s, ?_, fun n => mem_of_find_ofField, fun ctx hctx => ?_⟩
    · rw [write, hwrite]
      rfl
    · rw [read, ConvFields.optional, find_of_agree_ofField hctx]
      dsimp only
      rw [hread, ConvFields.remove_eq_without]
      rfl

theorem Conv.roundTrips_enum [DecidableEq α] {choices : List (Bytes × α)}
    (hname : enumName choices a = some name) (hvalue : enumValue choices name = some a) :
    (enum choices).RoundTrips version a := by
  refine ⟨.atom name, ?_, ?_⟩
  · rw [write, hname]
  · rw [read]
    simp only [hvalue]

theorem Conv.roundTrips_sum {n : Nat} {Arg : Fin n → Type} {name : Fin n → Bytes}
    {arg : (i : Fin n) → Conv (Arg i) .values} {inj : (i : Fin n) → Arg i → α}
    {case : α → (i : Fin n) × Arg i} (harg : (arg (case a).1).RoundTrips version (case a).2)
    (hinj : inj (case a).1 (case a).2 = a)
    (hindex : constrIndex name (name (case a).1) = some (case a).1) :
    (sum name arg inj case).RoundTrips version a := by
  obtain ⟨s, hwrite, hread⟩ := harg
  refine ⟨.list [.atom (name (case a).1), s], ?_, ?_⟩
  · rw [write]
    simp only [hwrite]
    rfl
  · rw [read]
    simp only [hindex, hread]
    change Except.ok (inj (case a).1 (case a).2, ()) = _
    rw [hinj]

theorem Conv.roundTrips_pair {x : Conv α .values} {y : Conv β .values} {a : α × β}
    (hx : x.RoundTrips version a.1) (hy : y.RoundTrips version a.2) :
    (pair x y).RoundTrips version a := by
  obtain ⟨s, hwrite, hread⟩ := hx
  obtain ⟨s', hwrite', hread'⟩ := hy
  refine ⟨.list [s, s'], ?_, ?_⟩
  · rw [write, hwrite, hwrite']
    rfl
  · rw [read]
    simp only [hread, hread']
    rfl

theorem Conv.roundTrips_triple {x : Conv α .values} {y : Conv β .values} {z : Conv γ .values}
    {a : α × β × γ} (hx : x.RoundTrips version a.1) (hy : y.RoundTrips version a.2.1)
    (hz : z.RoundTrips version a.2.2) : (triple x y z).RoundTrips version a := by
  obtain ⟨s, hwrite, hread⟩ := hx
  obtain ⟨s', hwrite', hread'⟩ := hy
  obtain ⟨s'', hwrite'', hread''⟩ := hz
  refine ⟨.list [s, s', s''], ?_, ?_⟩
  · rw [write, hwrite, hwrite', hwrite'']
    rfl
  · rw [read]
    simp only [hread, hread', hread'']
    rfl

theorem without_of_agree (hsub : ∀ n ∈ names, n ∈ names') (hctx : ctx.Agree names' f)
    (hf : ∀ n, f.find n ≠ none → n ∈ names) : ctx.without names = ctx.without names' := by
  refine ConvFields.without_congr fun n hn => ⟨hsub n, fun hmem => hf n ?_⟩
  rwa [← hctx n hmem]

theorem Conv.roundTrips_inl (hx : x.RoundTrips version a) :
    (either x y).RoundTrips version (.inl a) := by
  obtain ⟨f, hwrite, hnames, hread⟩ := hx
  refine ⟨f, hwrite, fun n hn => mem_append_left _ (hnames n hn), fun ctx hctx => ?_⟩
  have hctx' : ctx.Agree x.names f := fun n hn => hctx n (mem_append_left _ hn)
  rw [read, hread ctx hctx',
    without_of_agree (fun n => mem_append_left y.names) hctx hnames]
  rfl

theorem Conv.roundTrips_inr (hy : y.RoundTrips version b)
    (hx : ∀ f ctx, y.write b = .ok f → ConvFields.Agree (x.names ++ y.names) ctx f →
      ∃ e, x.read version ctx = .error (.ofSexp e)) :
    (either x y).RoundTrips version (.inr b) := by
  obtain ⟨f, hwrite, hnames, hread⟩ := hy
  refine ⟨f, hwrite, fun n hn => mem_append_right _ (hnames n hn), fun ctx hctx => ?_⟩
  have hctx' : ctx.Agree y.names f := fun n hn => hctx n (mem_append_right _ hn)
  obtain ⟨e, he⟩ := hx f ctx hwrite hctx
  rw [read, he]
  dsimp only
  rw [hread ctx hctx', without_of_agree (fun n => mem_append_right x.names) hctx hnames]
  rfl

theorem Conv.roundTrips_record {r : Conv α .fields} (h : r.RoundTrips version a) :
    (record r).RoundTrips version a := by
  obtain ⟨f, hwrite, hnames, hread⟩ := h
  refine ⟨f.toSexp, ?_, ?_⟩
  · rw [write, hwrite]
    rfl
  · have hempty : (f.without r.names).checkEmpty = .ok () := by
      refine ConvFields.checkEmpty_ok fun n => ?_
      rw [ConvFields.find_without]
      split_ifs with hn
      · rfl
      · by_contra hne
        exact hn (hnames n hne)
    rw [read, ConvFields.ofSexp_toSexp]
    simp only [ok_bind]
    rw [hread f fun n _ => rfl]
    simp only [ok_bind]
    rw [hempty]
    rfl

theorem Conv.roundTrips_recordFields {builder : RecordBuilder ρ ρ} {a : ρ}
    (hbuild : builder.build a = a) (h : builder.RoundTrips version a) :
    (recordFields builder).RoundTrips version a := by
  obtain ⟨f, hwrite, hnames, hread⟩ := h
  refine ⟨f, hwrite, hnames, fun ctx hctx => ?_⟩
  rw [read, hread ctx hctx, hbuild]
  rfl

theorem RecordBuilder.roundTrips_make {κ : Type} (constructor : κ) (a : ρ) :
    (make constructor).RoundTrips version a := by
  refine ⟨.empty, rfl, fun n hn => absurd (ConvFields.find_empty n) hn, fun ctx _ => ?_⟩
  rw [read, names, ConvFields.without_nil]
  rfl

theorem RecordBuilder.roundTrips_add {κ : Type} {builder : RecordBuilder ρ (α → κ)}
    {fields : Conv α .fields} {get : ρ → α} {a : ρ} (hdisjoint : Apart builder.names fields.names)
    (hb : builder.RoundTrips version a) (hf : fields.RoundTrips version (get a)) :
    (add builder fields get).RoundTrips version a := by
  obtain ⟨f, hwrite, hnames, hread⟩ := hb
  obtain ⟨f', hwrite', hnames', hread'⟩ := hf
  obtain ⟨m, hmerge, hm, hagree⟩ := merge_agree hdisjoint hnames hnames'
  refine ⟨m, ?_, hm, fun ctx hctx => ?_⟩
  · rw [write, hwrite, hwrite']
    exact hmerge
  · obtain ⟨hctx, hctx'⟩ := hagree ctx hctx
    rw [read, hread ctx hctx]
    simp only [ok_bind]
    rw [hread' _ hctx', ConvFields.without_append]
    rfl

end

/-- A value that its description does not lose is read back. -/
theorem Conv.Lossless.roundTrips {version : ConvVersion} {k : ConvKind} {c : Conv α k} :
    ∀ {a : α}, c.Lossless version a → c.RoundTrips version a := by
  refine @Conv.rec (fun _ _ c => ∀ {a}, c.Lossless version a → c.RoundTrips version a)
    (fun _ _ b => ∀ {a}, b.Lossless version a → b.RoundTrips version a)
    ?string ?int ?unit ?char ?iso ?isoResult ?version ?both ?sexp ?list ?fieldRequired
    ?fieldOptional ?enum ?sum ?pair ?triple ?either ?record ?recordFields ?make ?add α k c
  case string => exact fun {a} _ => ⟨.atom a, rfl, rfl⟩
  case int =>
    intro a h
    refine ⟨.atom (decimalInt a), rfl, ?_⟩
    rw [Conv.Lossless] at h
    simp only [read, h]
  case unit => exact fun _ => ⟨.list [], rfl, rfl⟩
  case char => exact fun {a} _ => ⟨.atom [a], rfl, rfl⟩
  case sexp => exact fun {a} _ => ⟨a, rfl, rfl⟩
  case iso => exact fun _ _ _ ih _ h => roundTrips_iso h.1 (ih h.2)
  case isoResult =>
    exact fun _ _ _ ih _ h => roundTrips_isoResult_iff.mpr (roundTrips_iso h.1 (ih h.2))
  case version => exact fun _ _ _ ih _ h => roundTrips_version h.1 (ih h.2)
  case both => exact fun _ _ ihx ihy _ h => roundTrips_both h.1 (ihx h.2.1) (ihy h.2.2)
  case list => exact fun _ ih _ h => roundTrips_list fun x hx => ih (h x hx)
  case fieldRequired => exact fun _ _ ih _ h => roundTrips_fieldRequired (ih h)
  case fieldOptional =>
    exact fun _ _ ih _ h => roundTrips_fieldOptional fun x hx => ih (h x hx)
  case enum =>
    intro _ _ choices a h
    obtain ⟨name, hname, hvalue⟩ := h
    exact roundTrips_enum hname hvalue
  case sum => exact fun _ _ _ _ ih _ h => roundTrips_sum (ih _ h.1) h.2.1 h.2.2
  case pair => exact fun _ _ ihx ihy _ h => roundTrips_pair (ihx h.1) (ihy h.2)
  case triple =>
    exact fun _ _ _ ihx ihy ihz _ h =>
      roundTrips_triple (ihx h.1) (ihy h.2.1) (ihz h.2.2)
  case either =>
    intro _ _ _ _ ihx ihy a h
    cases a with
    | inl a => exact roundTrips_inl (ihx h)
    | inr b => exact roundTrips_inr (ihy h.1) h.2
  case record => exact fun _ ih _ h => roundTrips_record (ih h)
  case recordFields => exact fun _ ih _ h => roundTrips_recordFields h.1 (ih h.2)
  case make => exact fun constructor a _ => roundTrips_make constructor a
  case add =>
    exact fun _ _ _ ihb ihf _ h => roundTrips_add h.1 (ihb h.2.1) (ihf h.2.2)

/-- A value that its description does not lose is written, and reading gives it back. -/
theorem Conv.ofSexp_toSexp {version : ConvVersion} {c : Conv α .values} {a : α}
    (h : c.Lossless version a) : ∃ s, c.toSexp a = .ok s ∧ c.ofSexp version s = .ok (.ok a) := by
  obtain ⟨s, hwrite, hread⟩ := h.roundTrips
  refine ⟨s, hwrite, ?_⟩
  rw [ofSexp, hread]

end Dune.Stdune

import Mathlib
import Quoin.Types.Join

/-!
# Quoin — joining many types

The compiler folds `join` over the types a block can return. On the collections
of one kind, and on the types between nil and one nullable type, `join` is
flat: two different ones join to the top one. There the order does not matter
(`Flat.assoc`, `Flat.harvest_perm`). It matters where the two meet: two
different collections of one kind join to the bare type if that happens before
nil comes in, and to `any` if nil comes in first. Nothing else depends on the
order, neither for three types (`Splits`) nor for any number of them
(`SplitsIn`).

## Results

* `Flat.harvest_perm` — where join is flat the order of the types does not matter;
* `join_order` — three types join alike in any grouping exactly if they do not split, and so any
  list in any order;
* `join_not_assoc` — two Lists with tags and nil.
-/

namespace Quoin.Types

namespace Ty

variable {a b c t f x y : Ty} {ts us : List Ty}

/-- The types a block returns, joined in order. -/
def harvest (ts : List Ty) : Ty := ts.foldl join never

/-- On `S` two different types join to `top`. -/
structure Flat (S : Ty → Prop) (top : Ty) : Prop where
  top_mem : S top
  join_eq : ∀ a b, S a → S b → join a b = if a = b then a else top

theorem Flat.mem {S : Ty → Prop} (h : Flat S t) (ha : S a) (hb : S b) : S (join a b) := by
  rw [h.join_eq a b ha hb]
  split_ifs
  · exact ha
  · exact h.top_mem

theorem Flat.top_join {S : Ty → Prop} (h : Flat S t) (ha : S a) : join t a = t := by
  rw [h.join_eq t a h.top_mem ha, ite_self]

theorem Flat.assoc {S : Ty → Prop} (h : Flat S t) (ha : S a) (hb : S b) (hc : S c) :
    join (join a b) c = join a (join b c) := by
  by_cases hab : a = b
  · subst hab
    rw [join_self]
    by_cases hac : a = c
    · rw [hac, join_self, join_self]
    · rw [h.join_eq a c ha hc, if_neg hac, join_comm, h.top_join ha]
  · rw [h.join_eq a b ha hb, if_neg hab, h.top_join hc]
    by_cases hbc : b = c
    · rw [hbc, join_self, ← hbc, h.join_eq a b ha hb, if_neg hab]
    · rw [h.join_eq b c hb hc, if_neg hbc, join_comm, h.top_join ha]

/-! ## The flat parts -/

theorem Proper.of_kind (h : a.kind = some f) : a.Proper := by
  constructor <;> rintro rfl <;> cases h

theorem Plain.of_kind (h : a.kind = some f) : Plain a := by
  constructor
  · rintro rfl
    cases h
  · rintro u rfl
    cases h

theorem kind_kind (h : a.kind = some f) : f.kind = some f := by
  cases a <;> simp only [kind, Option.some.injEq, reduceCtorEq] at h <;> subst h <;> rfl

theorem proper_nullable (t : Ty) : (nullable t).Proper := by
  constructor <;> simp

/-- What is not of one kind joins by the cores. -/
theorem join_of_kind_ne (ha : a.Proper) (hb : b.Proper) (hne : a ≠ b)
    (h : ¬ ∃ f, a.kind = some f ∧ b.kind = some f) : join a b = joinCores a b := by
  rw [join_eq ha hb, if_neg hne]
  cases hBare : bare a b with
  | none => rfl
  | some f => exact absurd ⟨f, (bare_eq_some_iff hne).mp hBare⟩ h

theorem flat_kind (h : f.kind = some f) : Flat (fun a => a.kind = some f) f where
  top_mem := h
  join_eq a b ha hb := by
    rw [join_eq (.of_kind ha) (.of_kind hb)]
    split_ifs with hne
    · rfl
    · rw [(bare_eq_some_iff hne).mpr ⟨ha, hb⟩]
      rfl

/-- Two types of one kind that are parts of one type are the same. -/
theorem Part.eq_of_kind (ha : a.kind = some f) (hPart : Part t a) : a = t :=
  (Plain.of_kind ha).part_iff.mp hPart

theorem flat_part (t : Ty) : Flat (fun a => Part t a ∧ a.Proper) (nullable t) where
  top_mem := ⟨part_nullable_iff.mpr rfl, proper_nullable t⟩
  join_eq a b ha hb := by
    by_cases hne : a = b
    · rw [if_pos hne, hne, join_self]
    · rw [if_neg hne, join_of_kind_ne ha.2 hb.2 hne]
      · obtain ⟨u, hJoin, hParts⟩ | ⟨-, hNone⟩ := joinCores_of_ne hne
        · rw [hJoin, (hParts t).mp ⟨ha.1, hb.1⟩]
        · exact absurd ⟨ha.1, hb.1⟩ (hNone t)
      · rintro ⟨f, hfa, hfb⟩
        exact hne ((Part.eq_of_kind hfa ha.1).trans (Part.eq_of_kind hfb hb.1).symm)

/-- Two types join to `any` or in a flat part. -/
theorem join_cases (ha : a.Proper) (hb : b.Proper) :
    join a b = any ∨ a = b ∨ (∃ f, a.kind = some f ∧ b.kind = some f) ∨ ∃ t, Part t a ∧ Part t b := by
  by_cases hne : a = b
  · exact .inr (.inl hne)
  by_cases hKind : ∃ f, a.kind = some f ∧ b.kind = some f
  · exact .inr (.inr (.inl hKind))
  rw [join_of_kind_ne ha hb hne hKind]
  obtain ⟨t, -, hParts⟩ | ⟨hJoin, -⟩ := joinCores_of_ne hne
  · exact .inr (.inr (.inr ⟨t, (hParts t).mpr rfl⟩))
  · exact .inl hJoin

/-- Every type is a part of one. -/
theorem exists_part (a : Ty) : ∃ t, Part t a := by
  obtain rfl | ⟨u, rfl⟩ | h := plain_or a
  · exact ⟨any, .inl rfl⟩
  · exact ⟨u, part_nullable_iff.mpr rfl⟩
  · exact ⟨a, h.part_iff.mpr rfl⟩

/-! ## Three types -/

/-- Nil, or the nullable type of a kind. -/
def NilOf (f c : Ty) : Prop := c = nil ∨ c = nullable f

theorem NilOf.part (h : NilOf f c) : Part f c := h.elim .inl fun h => .inr (.inl h)

theorem NilOf.proper (h : NilOf f c) : c.Proper := by
  obtain rfl | rfl := h
  · constructor <;> simp
  · exact proper_nullable f

theorem NilOf.ne_of_kind (h : NilOf f c) {g : Ty} (ha : a.kind = some g) : a ≠ c := by
  rintro rfl
  obtain rfl | rfl := h <;> cases ha

theorem NilOf.join_bare (h : NilOf f c) (hf : f.kind = some f) : join f c = nullable f := by
  rw [(flat_part f).join_eq f c ⟨(Plain.of_kind hf).part_iff.mpr rfl, .of_kind hf⟩
    ⟨h.part, h.proper⟩, if_neg (h.ne_of_kind hf)]

/-- Two different collections of one kind, and nil or the nullable type of that kind. -/
def Splits (a b c : Ty) : Prop :=
  ∃ f, a.kind = some f ∧ b.kind = some f ∧ a ≠ b ∧ NilOf f c

/-- All three are in one flat part. -/
def Together (a b c : Ty) : Prop :=
  (∃ f, a.kind = some f ∧ b.kind = some f ∧ c.kind = some f) ∨ ∃ t, Part t a ∧ Part t b ∧ Part t c

theorem Together.assoc (h : Together a b c) (ha : a.Proper) (hb : b.Proper) (hc : c.Proper) :
    join (join a b) c = join a (join b c) := by
  obtain ⟨f, hfa, hfb, hfc⟩ | ⟨t, hta, htb, htc⟩ := h
  · exact (flat_kind (kind_kind hfa)).assoc hfa hfb hfc
  · exact (flat_part t).assoc ⟨hta, ha⟩ ⟨htb, hb⟩ ⟨htc, hc⟩

theorem Together.swap (h : Together c b a) : Together a b c := by
  obtain ⟨f, hfc, hfb, hfa⟩ | ⟨t, htc, htb, hta⟩ := h
  · exact .inl ⟨f, hfa, hfb, hfc⟩
  · exact .inr ⟨t, hta, htb, htc⟩

/-- What joins with the bare type of a kind: the kind, and the parts of its nullable type. -/
theorem join_bare_cases (hf : f.kind = some f) (hc : c.Proper) :
    join f c = any ∨ c.kind = some f ∨ NilOf f c := by
  obtain hAny | rfl | ⟨g, hfg, hcg⟩ | ⟨t, htf, htc⟩ := join_cases (.of_kind hf) hc
  · exact .inl hAny
  · exact .inr (.inl hf)
  · rw [hf] at hfg
    exact .inr (.inl (hcg.trans hfg.symm))
  · obtain rfl := Part.eq_of_kind hf htf
    obtain rfl | rfl | ⟨-, rfl⟩ := htc
    · exact .inr (.inr (.inl rfl))
    · exact .inr (.inr (.inr rfl))
    · exact .inr (.inl hf)

theorem join_join_cases (ha : a.Proper) (hb : b.Proper) (hc : c.Proper) :
    join (join a b) c = any ∨ Together a b c ∨ Splits a b c := by
  by_cases hab : a = b
  · subst hab
    rw [join_self]
    obtain hAny | rfl | ⟨f, hfa, hfc⟩ | ⟨t, hta, htc⟩ := join_cases ha hc
    · exact .inl hAny
    · obtain ⟨t, ht⟩ := exists_part a
      exact .inr (.inl (.inr ⟨t, ht, ht, ht⟩))
    · exact .inr (.inl (.inl ⟨f, hfa, hfa, hfc⟩))
    · exact .inr (.inl (.inr ⟨t, hta, hta, htc⟩))
  obtain hAny | hSame | ⟨f, hfa, hfb⟩ | ⟨t, hta, htb⟩ := join_cases ha hb
  · rw [hAny, join_any_left]
    exact .inl rfl
  · exact absurd hSame hab
  · -- the two join to the bare type
    rw [(flat_kind (kind_kind hfa)).join_eq a b hfa hfb, if_neg hab]
    obtain hAny | hfc | hNil := join_bare_cases (kind_kind hfa) hc
    · exact .inl hAny
    · exact .inr (.inl (.inl ⟨f, hfa, hfb, hfc⟩))
    · exact .inr (.inr ⟨f, hfa, hfb, hab, hNil⟩)
  · -- the two join to the nullable type
    rw [(flat_part t).join_eq a b ⟨hta, ha⟩ ⟨htb, hb⟩, if_neg hab]
    obtain hAny | rfl | ⟨f, hKind, -⟩ | ⟨u, hut, huc⟩ := join_cases (proper_nullable t) hc
    · exact .inl hAny
    · exact .inr (.inl (.inr ⟨t, hta, htb, part_nullable_iff.mpr rfl⟩))
    · cases hKind
    · obtain rfl := part_nullable_iff.mp hut
      exact .inr (.inl (.inr ⟨t, hta, htb, huc⟩))

/-- Nil after the join of two collections makes it nullable; before, it leaves nothing known. -/
theorem Splits.join_eq (h : Splits a b c) :
    ∃ f, join (join a b) c = nullable f ∧ join a (join b c) = any := by
  obtain ⟨f, hfa, hfb, hab, hc⟩ := h
  have hf := kind_kind hfa
  have hbc : b ≠ c := hc.ne_of_kind hfb
  refine ⟨f, ?_, ?_⟩
  · rw [(flat_kind hf).join_eq a b hfa hfb, if_neg hab, hc.join_bare hf]
  · -- `b` and `c` join to `any` or to the nullable type of `b`, which is none of `a`
    have hNullable : join a (nullable b) = any := by
      obtain hAny | hSame | ⟨g, -, hg⟩ | ⟨t, hta, htb⟩ := join_cases (.of_kind hfa) (proper_nullable b)
      · exact hAny
      · rw [hSame] at hfa
        cases hfa
      · cases hg
      · obtain rfl := part_nullable_iff.mp htb
        exact absurd (Part.eq_of_kind hfa hta) hab
    obtain hAny | hSame | ⟨g, hgb, hgc⟩ | ⟨t, htb, htc⟩ := join_cases (.of_kind hfb) hc.proper
    · rw [hAny, join_any_right]
    · exact absurd hSame hbc
    · obtain rfl | rfl := hc <;> cases hgc
    · obtain rfl := Part.eq_of_kind hfb htb
      rw [(flat_part b).join_eq b c ⟨htb, .of_kind hfb⟩ ⟨htc, hc.proper⟩, if_neg hbc, hNullable]

/-- The order of three types matters where two collections of one kind meet nil, and nowhere
else. -/
theorem assoc_iff : join (join a b) c = join a (join b c) ↔ ¬ (Splits a b c ∨ Splits c b a) := by
  constructor
  · rintro hAssoc (h | h)
    · obtain ⟨f, hLeft, hRight⟩ := h.join_eq
      rw [hLeft, hRight] at hAssoc
      cases hAssoc
    · obtain ⟨f, hLeft, hRight⟩ := h.join_eq
      rw [join_comm (join c b) a, join_comm c b] at hLeft
      rw [join_comm c (join b a), join_comm b a] at hRight
      rw [hLeft, hRight] at hAssoc
      cases hAssoc
  · intro h
    by_cases hProper : a.Proper ∧ b.Proper ∧ c.Proper
    · obtain ⟨ha, hb, hc⟩ := hProper
      by_cases hTogether : Together a b c
      · exact hTogether.assoc ha hb hc
      · have hLeft := (join_join_cases ha hb hc).resolve_right fun h' =>
          h'.elim hTogether fun hSplits => h (.inl hSplits)
        have hRight := (join_join_cases hc hb ha).resolve_right fun h' =>
          h'.elim (fun h' => hTogether h'.swap) fun hSplits => h (.inr hSplits)
        rw [hLeft, join_comm a, join_comm b, hRight]
    · -- `any` takes all, and `never` adds nothing
      have hSome : (a = any ∨ a = never) ∨ (b = any ∨ b = never) ∨ c = any ∨ c = never := by
        unfold Proper at hProper
        tauto
      obtain (rfl | rfl) | (rfl | rfl) | (rfl | rfl) := hSome <;> simp

/-! ## Any number of types -/

theorem harvest_concat (ts : List Ty) (c : Ty) : harvest (ts ++ [c]) = join (harvest ts) c := by
  rw [harvest, List.foldl_append]
  rfl

/-- A member, if it is not `never`, has the property. -/
def All (P : Ty → Prop) (ts : List Ty) : Prop := ∀ t ∈ ts, t = never ∨ P t

theorem All.concat {P : Ty → Prop} (h : All P ts) (hc : c = never ∨ P c) : All P (ts ++ [c]) := by
  intro t ht
  obtain ht | ht := List.mem_append.mp ht
  · exact h t ht
  · rw [List.mem_singleton.mp ht]
    exact hc

theorem All.mono {P Q : Ty → Prop} (h : All P ts) (hPQ : ∀ t, P t → Q t) : All Q ts :=
  fun t ht => (h t ht).imp_right (hPQ t)

/-- Two different collections of one kind. -/
def Differ (f : Ty) (ts : List Ty) : Prop :=
  ∃ a ∈ ts, ∃ b ∈ ts, a.kind = some f ∧ b.kind = some f ∧ a ≠ b

/-- Nothing but collections of one kind, different ones among them, and nil or the nullable type of
the kind. -/
def SplitsIn (ts : List Ty) : Prop :=
  ∃ f, All (fun t => t.kind = some f ∨ t = nil ∨ t = nullable f) ts ∧ Differ f ts ∧
    (nil ∈ ts ∨ nullable f ∈ ts)

theorem Differ.concat (h : Differ f ts) (c : Ty) : Differ f (ts ++ [c]) := by
  obtain ⟨a, ha, b, hb, hRest⟩ := h
  exact ⟨a, List.mem_append_left _ ha, b, List.mem_append_left _ hb, hRest⟩

/-- What the types joined in order are. -/
inductive Harvested (ts : List Ty) (r : Ty) : Prop
  | nothing (hAll : All (fun _ => False) ts) (h : r = never)
  | unknown (h : r = any)
  | part (t : Ty) (hAll : All (fun x => Part t x ∧ x.Proper) ts) (hr : Part t r ∧ r.Proper)
      (h : r = nullable t ∨ All (fun x => x = r) ts ∧ r ∈ ts)
  | kind (f : Ty) (hAll : All (fun x => x.kind = some f) ts) (hDiffer : Differ f ts) (h : r = f)
  | splits (f : Ty) (hAll : All (fun t => t.kind = some f ∨ t = nil ∨ t = nullable f) ts)
      (hDiffer : Differ f ts) (hNil : nil ∈ ts ∨ nullable f ∈ ts) (h : r = nullable f)

theorem Differ.kind_kind (h : Differ f ts) : f.kind = some f := by
  obtain ⟨a, -, -, -, ha, -⟩ := h
  exact Ty.kind_kind ha

/-- A member more. -/
theorem Harvested.concat {r : Ty} (h : Harvested ts r) (c : Ty) :
    Harvested (ts ++ [c]) (join r c) := by
  -- once the result is `any` it stays so
  by_cases hAny : join r c = any
  · exact .unknown hAny
  -- `never` changes nothing: that branch does not come back
  by_cases hNever : c = never
  · subst hNever
    rw [join_never_right]
    cases h with
    | nothing hAll h => exact .nothing (hAll.concat (.inl rfl)) h
    | unknown h => exact .unknown h
    | part t hAll hr h =>
      exact .part t (hAll.concat (.inl rfl)) hr
        (h.imp_right fun h => ⟨h.1.concat (.inl rfl), List.mem_append_left _ h.2⟩)
    | kind f hAll hDiffer h => exact .kind f (hAll.concat (.inl rfl)) (hDiffer.concat _) h
    | splits f hAll hDiffer hNil h =>
      exact .splits f (hAll.concat (.inl rfl)) (hDiffer.concat _)
        (hNil.imp (List.mem_append_left _) (List.mem_append_left _)) h
  have hc : c.Proper := by
    refine ⟨?_, hNever⟩
    rintro rfl
    exact hAny (join_any_right r)
  have hMem : c ∈ ts ++ [c] := List.mem_append_right _ (List.mem_singleton_self c)
  -- by what the types so far are: each case says what the new one makes of them
  cases h with
  | nothing hAll h =>
    subst h
    obtain ⟨t, ht⟩ := exists_part c
    rw [join_never_left]
    exact .part t ((hAll.mono fun _ h => h.elim).concat (.inr ⟨ht, hc⟩)) ⟨ht, hc⟩
      (.inr ⟨(hAll.mono fun _ h => h.elim).concat (.inr rfl), hMem⟩)
  | unknown h =>
    subst h
    exact absurd (join_any_left c) hAny
  | part t hAll hr h =>
    by_cases hrc : r = c
    · subst hrc
      rw [join_self]
      exact .part t (hAll.concat (.inr hr)) hr
        (h.imp_right fun h => ⟨h.1.concat (.inr rfl), hMem⟩)
    obtain h' | h' | ⟨f, hfr, hfc⟩ | ⟨u, hur, huc⟩ := join_cases hr.2 hc
    · exact absurd h' hAny
    · exact absurd h' hrc
    · -- a collection joined so far: all are the same one
      obtain rfl | ⟨hSame, hIn⟩ := h
      · cases hfr
      · rw [(flat_kind (Ty.kind_kind hfr)).join_eq r c hfr hfc, if_neg hrc]
        exact .kind f ((hSame.mono fun x hx => hx ▸ hfr).concat (.inr hfc))
          ⟨r, List.mem_append_left _ hIn, c, hMem, hfr, hfc, hrc⟩ rfl
    · -- between nil and one nullable type, `join` is flat
      rw [(flat_part u).join_eq r c ⟨hur, hr.2⟩ ⟨huc, hc⟩, if_neg hrc]
      have hParts : All (fun x => Part u x ∧ x.Proper) ts := by
        obtain rfl | ⟨hSame, -⟩ := h
        · obtain rfl := part_nullable_iff.mp hur
          exact hAll
        · exact hSame.mono fun x hx => hx ▸ ⟨hur, hr.2⟩
      exact .part u (hParts.concat (.inr ⟨huc, hc⟩))
        ⟨part_nullable_iff.mpr rfl, proper_nullable u⟩ (.inl rfl)
  | kind f hAll hDiffer h =>
    subst r
    have hf := hDiffer.kind_kind
    obtain h' | hfc | hNil := join_bare_cases hf hc
    · exact absurd h' hAny
    · rw [(flat_kind hf).top_join hfc]
      exact .kind f (hAll.concat (.inr hfc)) (hDiffer.concat c) rfl
    · -- nil meets two different collections of one kind
      rw [hNil.join_bare hf]
      refine .splits f ((hAll.mono fun _ => .inl).concat (.inr (.inr hNil))) (hDiffer.concat c) ?_ rfl
      obtain rfl | rfl := hNil
      · exact .inl hMem
      · exact .inr hMem
  | splits f hAll hDiffer hNil h =>
    subst h
    obtain h' | rfl | ⟨g, hg, -⟩ | ⟨u, hur, huc⟩ := join_cases (proper_nullable f) hc
    · exact absurd h' hAny
    · rw [join_self]
      exact .splits f (hAll.concat (.inr (.inr (.inr rfl)))) (hDiffer.concat _)
        (hNil.imp (List.mem_append_left _) (List.mem_append_left _)) rfl
    · cases hg
    · obtain rfl := part_nullable_iff.mp hur
      rw [(flat_part f).top_join ⟨huc, hc⟩]
      have hThis : c.kind = some f ∨ c = nil ∨ c = nullable f := by
        obtain rfl | rfl | ⟨-, rfl⟩ := huc
        · exact .inr (.inl rfl)
        · exact .inr (.inr rfl)
        · exact .inl hDiffer.kind_kind
      exact .splits f (hAll.concat (.inr hThis)) (hDiffer.concat c)
        (hNil.imp (List.mem_append_left _) (List.mem_append_left _)) rfl

theorem harvested (ts : List Ty) : Harvested ts (harvest ts) := by
  induction ts using List.reverseRecOn with
  | nil => exact .nothing (fun _ h => absurd h List.not_mem_nil) rfl
  | append_singleton ts c ih =>
    rw [harvest_concat]
    exact ih.concat c

/-! ## The order of any number of types -/

/-- On a set that `join` does not leave and on which it is associative, the order is irrelevant. -/
theorem foldl_join_perm {S : Ty → Prop} (hMem : ∀ a b, S a → S b → S (join a b))
    (hAssoc : ∀ a b c, S a → S b → S c → join (join a b) c = join a (join b c))
    (h : ts.Perm us) : (∀ t ∈ ts, S t) → ∀ z, S z → ts.foldl join z = us.foldl join z := by
  induction h with
  | nil => exact fun _ _ _ => rfl
  | cons a _ ih =>
    intro hAll z hz
    rw [List.foldl_cons, List.foldl_cons]
    exact ih (fun t ht => hAll t (List.mem_cons_of_mem a ht)) _
      (hMem z a hz (hAll a List.mem_cons_self))
  | swap a b l =>
    intro hAll z hz
    have hb := hAll b List.mem_cons_self
    have ha := hAll a (List.mem_cons_of_mem b List.mem_cons_self)
    rw [List.foldl_cons, List.foldl_cons, List.foldl_cons, List.foldl_cons, hAssoc z b a hz hb ha,
      join_comm b a, ← hAssoc z a b hz ha hb]
  | trans hFirst _ ih ih' =>
    intro hAll z hz
    rw [ih hAll z hz, ih' (fun t ht => hAll t (hFirst.mem_iff.mpr ht)) z hz]

/-- The types of a flat part are joined to the same in every order. -/
theorem Flat.harvest_perm {S : Ty → Prop} (hFlat : Flat S t) (hAll : All S ts)
    (hPerm : ts.Perm us) : harvest ts = harvest us := by
  refine foldl_join_perm (S := fun t => t = never ∨ S t) ?_ ?_ hPerm hAll never (.inl rfl)
  · rintro a b (rfl | ha) (rfl | hb)
    · exact .inl (join_self never)
    · exact .inr (by rwa [join_never_left])
    · exact .inr (by rwa [join_never_right])
    · exact .inr (hFlat.mem ha hb)
  · rintro a b c (rfl | ha) (rfl | hb) (rfl | hc)
    case inr.inr.inr => exact hFlat.assoc ha hb hc
    all_goals simp only [join_never_left, join_never_right]

theorem All.perm {P : Ty → Prop} (h : All P ts) (hPerm : ts.Perm us) : All P us :=
  fun t ht => h t (hPerm.mem_iff.mpr ht)

theorem SplitsIn.perm (h : SplitsIn ts) (hPerm : ts.Perm us) : SplitsIn us := by
  obtain ⟨f, hAll, ⟨a, ha, b, hb, hRest⟩, hNil⟩ := h
  exact ⟨f, hAll.perm hPerm, ⟨a, hPerm.mem_iff.mp ha, b, hPerm.mem_iff.mp hb, hRest⟩,
    hNil.imp hPerm.mem_iff.mp hPerm.mem_iff.mp⟩

theorem harvest_cases (hSplits : ¬ SplitsIn ts) :
    harvest ts = any ∨ ∃ S t, Flat S t ∧ All S ts := by
  cases harvested ts with
  | nothing hAll h => exact .inr ⟨_, _, flat_part any, hAll.mono fun _ h => h.elim⟩
  | unknown h => exact .inl h
  | part t hAll hr h => exact .inr ⟨_, _, flat_part t, hAll⟩
  | kind f hAll hDiffer h => exact .inr ⟨_, _, flat_kind hDiffer.kind_kind, hAll⟩
  | splits f hAll hDiffer hNil h => exact absurd ⟨f, hAll, hDiffer, hNil⟩ hSplits

theorem harvest_perm (hSplits : ¬ SplitsIn ts) (hPerm : ts.Perm us) : harvest us = harvest ts := by
  obtain hAny | ⟨S, t, hFlat, hAll⟩ := harvest_cases hSplits
  · obtain hAny' | ⟨S, t, hFlat, hAll⟩ := harvest_cases fun h => hSplits (h.perm hPerm.symm)
    · rw [hAny, hAny']
    · exact hFlat.harvest_perm hAll hPerm.symm
  · exact (hFlat.harvest_perm hAll hPerm).symm

theorem Flat.foldl_top {S : Ty → Prop} (hFlat : Flat S t) (hAll : All S ts) :
    ts.foldl join t = t := by
  induction ts with
  | nil => rfl
  | cons a ts ih =>
    have hTail : All S ts := fun u hu => hAll u (List.mem_cons_of_mem a hu)
    obtain rfl | ha := hAll a List.mem_cons_self
    · rw [List.foldl_cons, join_never_right, ih hTail]
    · rw [List.foldl_cons, hFlat.top_join ha, ih hTail]

theorem foldl_any (ts : List Ty) : ts.foldl join any = any := by
  induction ts with
  | nil => rfl
  | cons a ts ih => rw [List.foldl_cons, join_any_left, ih]

/-- Three different members may be brought to the front. -/
theorem perm_front (ha : a ∈ ts) (hb : b ∈ ts) (hc : c ∈ ts) (hab : a ≠ b) (hac : a ≠ c)
    (hbc : b ≠ c) : ∃ rest, ts.Perm (a :: b :: c :: rest) := by
  have hb' : b ∈ ts.erase a := (List.mem_erase_of_ne hab.symm).mpr hb
  have hc' : c ∈ (ts.erase a).erase b :=
    (List.mem_erase_of_ne hbc.symm).mpr ((List.mem_erase_of_ne hac.symm).mpr hc)
  exact ⟨_, (List.perm_cons_erase ha).trans
    (((List.perm_cons_erase hb').trans ((List.perm_cons_erase hc').cons b)).cons a)⟩

/-- Where collections of one kind meet nil among the types, two orders join to different types. -/
theorem SplitsIn.orders (h : SplitsIn ts) :
    ∃ us vs, us.Perm ts ∧ vs.Perm ts ∧ harvest us ≠ harvest vs := by
  obtain ⟨f, hAll, ⟨a, ha, b, hb, hfa, hfb, hab⟩, hNil⟩ := h
  have hf := Ty.kind_kind hfa
  obtain ⟨c, hc, hSplit⟩ : ∃ c ∈ ts, NilOf f c :=
    hNil.elim (fun h => ⟨nil, h, .inl rfl⟩) fun h => ⟨nullable f, h, .inr rfl⟩
  obtain ⟨rest, hRest⟩ := perm_front ha hb hc hab (hSplit.ne_of_kind hfa) (hSplit.ne_of_kind hfb)
  have hAll' : All (fun t => t.kind = some f ∨ t = nil ∨ t = nullable f) rest := fun t ht =>
    hAll.perm hRest t (List.mem_cons_of_mem a (List.mem_cons_of_mem b (List.mem_cons_of_mem c ht)))
  let isKind : Ty → Bool := fun t => t.kind = some f
  refine ⟨a :: c :: b :: rest, a :: b :: (rest.filter isKind ++ c :: rest.filter (!isKind ·)),
    ?_, ?_, ?_⟩
  · exact ((List.Perm.swap b c rest).cons a).trans hRest.symm
  · refine List.Perm.trans ?_ hRest.symm
    exact ((List.perm_middle.trans ((List.filter_append_perm isKind rest).cons c)).cons b).cons a
  · -- nil before the second collection
    have hEarly : harvest (a :: c :: b :: rest) = any := by
      obtain ⟨-, -, hJoin⟩ := @Splits.join_eq b a c ⟨f, hfb, hfa, hab.symm, hSplit⟩
      rw [harvest, List.foldl_cons, List.foldl_cons, List.foldl_cons, join_never_left,
        join_comm (join a c) b, hJoin, foldl_any]
    -- all collections before nil
    have hKinds : All (fun t => t.kind = some f) (rest.filter isKind) := fun t ht =>
      .inr (by simpa [isKind] using (List.mem_filter.mp ht).2)
    have hParts : All (fun t => Part f t ∧ t.Proper) (rest.filter (!isKind ·)) := by
      intro t ht
      obtain ⟨hMem, hNot⟩ := List.mem_filter.mp ht
      obtain hNever | hKind | rfl | rfl := hAll' t hMem
      · exact .inl hNever
      · simp [isKind, hKind] at hNot
      · exact .inr ⟨.inl rfl, by constructor <;> simp⟩
      · exact .inr ⟨.inr (.inl rfl), proper_nullable f⟩
    have hLate : harvest (a :: b :: (rest.filter isKind ++ c :: rest.filter (!isKind ·))) =
        nullable f := by
      rw [harvest, List.foldl_cons, List.foldl_cons, join_never_left,
        (flat_kind hf).join_eq a b hfa hfb, if_neg hab, List.foldl_append,
        (flat_kind hf).foldl_top hKinds, List.foldl_cons, hSplit.join_bare hf,
        (flat_part f).foldl_top hParts]
    rw [hEarly, hLate]
    simp

/-- **The order of the branches.** It matters for three types where two collections of one kind
meet nil, and for any number of them where they are all of this sort. -/
theorem join_order (a b c : Ty) (ts : List Ty) :
    (join (join a b) c = join a (join b c) ↔ ¬ (Splits a b c ∨ Splits c b a)) ∧
      ((∀ us, us.Perm ts → harvest us = harvest ts) ↔ ¬ SplitsIn ts) := by
  refine ⟨assoc_iff, fun hSame hSplits => ?_, fun h us hPerm => ?_⟩
  · obtain ⟨us, vs, hus, hvs, hDiffer⟩ := hSplits.orders
    exact hDiffer ((hSame us hus).trans (hSame vs hvs).symm)
  · exact harvest_perm h hPerm.symm

/-- A list of integers, a list of strings and nil: with the lists first it is a nullable `List`, and
with nil first it is `any`. -/
theorem join_not_assoc :
    join (join (listOf int) (listOf string)) nil ≠
      join (listOf int) (join (listOf string) nil) := by
  decide

end Ty

end Quoin.Types

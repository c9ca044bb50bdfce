import Mathlib

/-!
# Quoin — the static types

`Ty` is the checker's type lattice: `any` on top, `never` at the bottom,
collections with or without a tag, blocks with or without a shape, and
`nullable`. `join` is the type of a value that has the one type on one path and
the other on another; `compatibleWith` says that a value of a type may stand
where another is expected.

## Results

* `join_upper_bound` — `join` is commutative and idempotent, and both types may stand where their
  join is expected.
-/

namespace Quoin.Types

inductive Ty where
  | int
  | double
  | bool
  | string
  | nil
  | list
  | map
  | set
  | block
  | listOf (elem : Ty)
  | mapOf (key value : Ty)
  | setOf (elem : Ty)
  | blockOf (params : List Ty) (ret : Ty)
  | var (name : String)
  | inst (name : String)
  | nullable (inner : Ty)
  | any
  | never

namespace Ty

/-! ## Equality -/

mutual
/-- The derived `==`. -/
def beq : Ty → Ty → Bool
  | int, int => true
  | double, double => true
  | bool, bool => true
  | string, string => true
  | nil, nil => true
  | list, list => true
  | map, map => true
  | set, set => true
  | block, block => true
  | listOf a, listOf b => a.beq b
  | mapOf k v, mapOf k' v' => k.beq k' && v.beq v'
  | setOf a, setOf b => a.beq b
  | blockOf ps r, blockOf ps' r' => beqAll ps ps' && r.beq r'
  | var n, var n' => n == n'
  | inst n, inst n' => n == n'
  | nullable a, nullable b => a.beq b
  | any, any => true
  | never, never => true
  | _, _ => false

def beqAll : List Ty → List Ty → Bool
  | [], [] => true
  | a :: as, b :: bs => a.beq b && beqAll as bs
  | _, _ => false
end

mutual
theorem beq_refl : ∀ a : Ty, a.beq a = true
  | int | double | bool | string | nil | list | map | set | block | any | never => rfl
  | listOf a | setOf a | nullable a => by rw [beq, beq_refl a]
  | mapOf k v => by rw [beq, beq_refl k, beq_refl v, Bool.and_self]
  | blockOf ps r => by rw [beq, beqAll_refl ps, beq_refl r, Bool.and_self]
  | var n | inst n => by rw [beq, beq_self_eq_true]

theorem beqAll_refl : ∀ as : List Ty, beqAll as as = true
  | [] => rfl
  | a :: as => by rw [beqAll, beq_refl a, beqAll_refl as, Bool.and_self]
end

mutual
theorem eq_of_beq : ∀ {a b : Ty}, a.beq b = true → a = b
  | int, b | double, b | bool, b | string, b | nil, b | list, b | map, b | set, b | block, b
  | any, b | never, b => by cases b <;> simp [beq]
  | listOf a, b => by
    cases b <;> simp only [beq, Bool.false_eq_true, false_implies, reduceCtorEq]
    exact fun h => congrArg listOf (eq_of_beq h)
  | setOf a, b => by
    cases b <;> simp only [beq, Bool.false_eq_true, false_implies, reduceCtorEq]
    exact fun h => congrArg setOf (eq_of_beq h)
  | nullable a, b => by
    cases b <;> simp only [beq, Bool.false_eq_true, false_implies, reduceCtorEq]
    exact fun h => congrArg nullable (eq_of_beq h)
  | mapOf k v, b => by
    cases b <;> simp only [beq, Bool.false_eq_true, false_implies, reduceCtorEq, Bool.and_eq_true]
    exact fun ⟨hk, hv⟩ => congrArg₂ mapOf (eq_of_beq hk) (eq_of_beq hv)
  | blockOf ps r, b => by
    cases b <;> simp only [beq, Bool.false_eq_true, false_implies, reduceCtorEq, Bool.and_eq_true]
    exact fun ⟨hps, hr⟩ => congrArg₂ blockOf (eq_of_beqAll hps) (eq_of_beq hr)
  | var n, b => by cases b <;> simp [beq]
  | inst n, b => by cases b <;> simp [beq]

theorem eq_of_beqAll : ∀ {as bs : List Ty}, beqAll as bs = true → as = bs
  | [], [] => fun _ => rfl
  | [], _ :: _ => fun h => (by cases h)
  | _ :: _, [] => fun h => (by cases h)
  | a :: as, b :: bs => fun h => by
    obtain ⟨ha, has⟩ := Bool.and_eq_true_iff.mp h
    exact congrArg₂ List.cons (eq_of_beq ha) (eq_of_beqAll has)
end

instance : DecidableEq Ty := fun a b =>
  decidable_of_iff (a.beq b = true) ⟨eq_of_beq, fun h => h ▸ beq_refl a⟩

/-! ## Compatibility -/

mutual
def containsVar : Ty → Bool
  | var _ => true
  | nullable t => t.containsVar
  | listOf t => t.containsVar
  | setOf t => t.containsVar
  | mapOf k v => k.containsVar || v.containsVar
  | blockOf params ret => anyVar params || ret.containsVar
  | _ => false

/-- `params.iter().any(|p| p.contains_var())`. -/
def anyVar : List Ty → Bool
  | [] => false
  | p :: ps => p.containsVar || anyVar ps
end

mutual
def compatibleWith (self expected : Ty) : Bool :=
  if self.containsVar || expected.containsVar then true else
  match self, expected with
  | any, _ => true
  | _, any => true
  | var _, _ => true
  | _, var _ => true
  | listOf _, list => true
  | mapOf _ _, map => true
  | setOf _, set => true
  | listOf a, listOf b => a = b
  | setOf a, setOf b => a = b
  | mapOf ak av, mapOf ek ev => (ak = ek ∨ ak = any ∨ ek = any) ∧ (av = ev ∨ ev = any)
  | blockOf _ _, block => true
  | block, blockOf _ _ => true
  | blockOf ap ar, blockOf ep er => allCompatible ep ap && ar.compatibleWith er
  | never, _ => true
  | nil, nullable _ => true
  | nullable a, nullable inner => a.compatibleWith inner
  | other, nullable inner => other.compatibleWith inner
  | nullable _, _ => false
  | a, b => a = b
termination_by sizeOf self + sizeOf expected

/-- `ep.iter().zip(ap).all(|(e, a)| e.compatible_with(a))`. -/
def allCompatible : List Ty → List Ty → Bool
  | e :: es, a :: as => e.compatibleWith a && allCompatible es as
  | _, _ => true
termination_by es as => sizeOf es + sizeOf as
end

/-! ## Join -/

/-- The bare type of a pair of collections, or blocks, of one kind of which one is not bare. -/
def bare : Ty → Ty → Option Ty
  | listOf _, listOf _ | listOf _, list | list, listOf _ => some list
  | mapOf _ _, mapOf _ _ | mapOf _ _, map | map, mapOf _ _ => some map
  | setOf _, setOf _ | setOf _, set | set, setOf _ => some set
  | blockOf _ _, blockOf _ _ | blockOf _ _, block | block, blockOf _ _ => some block
  | _, _ => none

/-- The core that is not nil, and whether the value may be. -/
def split : Ty → Option Ty × Bool
  | nil => (none, true)
  | nullable inner => (some inner, true)
  | other => (some other, false)

/-- The core that two cores have in common, `none` if they are different. -/
def commonCore : Option Ty → Option Ty → Option (Option Ty)
  | none, none => some none
  | some t, none => some (some t)
  | none, some t => some (some t)
  | some x, some y => if x = y then some (some x) else none

/-- The last part of `join`: the cores are joined, and may be nil if one may. -/
def joinCores (self other : Ty) : Ty :=
  match commonCore self.split.1 other.split.1 with
  | none => any
  | some none => nil
  | some (some t) => if self.split.2 || other.split.2 then nullable t else t

def join (self other : Ty) : Ty :=
  match self, other with
  | any, _ => any
  | _, any => any
  | never, t => t
  | t, never => t
  | self, other =>
    if self = other then self else
    match bare self other with
    | some t => t
    | none => joinCores self other

/-! ## Upper bounds -/

variable {a b c t : Ty}

mutual
theorem compatibleWith_refl : ∀ t : Ty, t.compatibleWith t = true
  | int | double | bool | string | nil | list | map | set | block | any | never | var _ | inst _ => by
    simp [compatibleWith]
  | listOf t | setOf t | mapOf k v => by simp [compatibleWith]
  | nullable t => by
    rw [compatibleWith]
    split_ifs
    · rfl
    · exact compatibleWith_refl t
  | blockOf params ret => by
    rw [compatibleWith]
    split_ifs
    · rfl
    · exact Bool.and_eq_true_iff.mpr ⟨allCompatible_refl params, compatibleWith_refl ret⟩

theorem allCompatible_refl : ∀ ts : List Ty, allCompatible ts ts = true
  | [] => by rw [allCompatible]; simp
  | t :: ts => by
    rw [allCompatible]
    exact Bool.and_eq_true_iff.mpr ⟨compatibleWith_refl t, allCompatible_refl ts⟩
end

theorem compatibleWith_any (t : Ty) : t.compatibleWith any = true := by
  unfold compatibleWith
  split_ifs
  · rfl
  · split <;> simp_all

theorem never_compatibleWith (t : Ty) : never.compatibleWith t = true := by
  cases t <;> simp [compatibleWith]

theorem nil_compatibleWith (t : Ty) : nil.compatibleWith (nullable t) = true := by
  simp [compatibleWith]

theorem compatibleWith_nullable (h : ∀ u, t ≠ nullable u) :
    t.compatibleWith (nullable t) = true := by
  have hRefl := compatibleWith_refl t
  cases t <;> simp_all [compatibleWith]

/-- The bare type of a collection or block. -/
def kind : Ty → Option Ty
  | list | listOf _ => some list
  | map | mapOf _ _ => some map
  | set | setOf _ => some set
  | block | blockOf _ _ => some block
  | _ => none

theorem compatibleWith_kind {f : Ty} (h : t.kind = some f) : t.compatibleWith f = true := by
  cases t <;> simp only [kind, Option.some.injEq, reduceCtorEq] at h <;> subst h <;>
    simp [compatibleWith]

theorem kind_of_bare {f : Ty} (h : bare a b = some f) : a.kind = some f ∧ b.kind = some f := by
  cases a <;> first
    | cases h
    | cases b <;> first
      | exact ⟨h, h⟩
      | cases h

theorem bare_of_kind {f : Ty} (hne : a ≠ b) (ha : a.kind = some f) (hb : b.kind = some f) :
    bare a b = some f := by
  cases a <;> first
    | (cases ha; done)
    | cases b <;> first
      | exact absurd rfl hne
      | (cases hb; done)
      | exact ha
      | cases ha.trans hb.symm

theorem bare_eq_some_iff {f : Ty} (hne : a ≠ b) :
    bare a b = some f ↔ a.kind = some f ∧ b.kind = some f :=
  ⟨kind_of_bare, fun h => bare_of_kind hne h.1 h.2⟩

/-- Neither nil nor nullable. -/
def Plain (t : Ty) : Prop := t ≠ nil ∧ ∀ u, t ≠ nullable u

theorem plain_or (t : Ty) : t = nil ∨ (∃ u, t = nullable u) ∨ Plain t := by
  unfold Plain
  cases t <;> simp

theorem split_nil : nil.split = (none, true) := rfl

theorem split_nullable (t : Ty) : (nullable t).split = (some t, true) := rfl

theorem Plain.split (h : Plain t) : t.split = (some t, false) := by
  unfold Ty.split
  split
  · exact absurd rfl h.1
  · exact absurd rfl (h.2 _)
  · rfl

/-- `t` itself, its nullable type, or nil: what joins to no more than `nullable t`. -/
def Part (t u : Ty) : Prop := u = nil ∨ u = nullable t ∨ Plain u ∧ u = t

theorem part_nullable_iff : Part t (nullable a) ↔ a = t := by
  simp [Part, Plain]

theorem Plain.part_iff (h : Plain a) : Part t a ↔ a = t := by
  simp [Part, h, h.1, h.2]

theorem Part.compatibleWith (h : Part t a) : a.compatibleWith (nullable t) = true := by
  obtain rfl | rfl | ⟨hPlain, rfl⟩ := h
  · exact nil_compatibleWith t
  · exact compatibleWith_refl _
  · exact compatibleWith_nullable hPlain.2

/-- The cores of two different types join where both types are parts of one nullable type. -/
theorem joinCores_of_ne (hne : a ≠ b) :
    (∃ t, joinCores a b = nullable t ∧ ∀ u, Part u a ∧ Part u b ↔ u = t) ∨
      joinCores a b = any ∧ ∀ u, ¬ (Part u a ∧ Part u b) := by
  have hNil : ∀ u, Part u nil := fun _ => .inl rfl
  obtain rfl | ⟨x, rfl⟩ | ha := plain_or a <;> obtain rfl | ⟨y, rfl⟩ | hb := plain_or b
  · exact absurd rfl hne
  · refine .inl ⟨y, rfl, fun u => ?_⟩
    simp [hNil, part_nullable_iff, eq_comm]
  · refine .inl ⟨b, by simp [joinCores, hb.split, split_nil, commonCore], fun u => ?_⟩
    simp [hNil, hb.part_iff, eq_comm]
  · refine .inl ⟨x, rfl, fun u => ?_⟩
    simp [hNil, part_nullable_iff, eq_comm]
  · have hxy : x ≠ y := fun h => hne (congrArg nullable h)
    refine .inr ⟨by simp [joinCores, split_nullable, commonCore, hxy], fun u => ?_⟩
    simp only [part_nullable_iff]
    rintro ⟨rfl, rfl⟩
    exact hxy rfl
  · by_cases hxb : x = b
    · subst hxb
      refine .inl ⟨x, by simp [joinCores, hb.split, split_nullable, commonCore], fun u => ?_⟩
      simp [part_nullable_iff, hb.part_iff, eq_comm]
    · refine .inr ⟨by simp [joinCores, hb.split, split_nullable, commonCore, hxb], fun u => ?_⟩
      simp only [part_nullable_iff, hb.part_iff]
      rintro ⟨rfl, rfl⟩
      exact hxb rfl
  · refine .inl ⟨a, by simp [joinCores, ha.split, split_nil, commonCore], fun u => ?_⟩
    simp [hNil, ha.part_iff, eq_comm]
  · by_cases hay : a = y
    · subst hay
      refine .inl ⟨a, by simp [joinCores, ha.split, split_nullable, commonCore], fun u => ?_⟩
      simp [part_nullable_iff, ha.part_iff, eq_comm]
    · refine .inr ⟨by simp [joinCores, ha.split, split_nullable, commonCore, hay], fun u => ?_⟩
      simp only [part_nullable_iff, ha.part_iff]
      rintro ⟨rfl, rfl⟩
      exact hay rfl
  · refine .inr ⟨by simp [joinCores, ha.split, hb.split, commonCore, hne], fun u => ?_⟩
    simp only [ha.part_iff, hb.part_iff]
    rintro ⟨rfl, rfl⟩
    exact hne rfl

/-- Neither the top nor the bottom. -/
def Proper (t : Ty) : Prop := t ≠ any ∧ t ≠ never

@[simp] theorem join_any_left (t : Ty) : join any t = any := by
  rw [join]

@[simp] theorem join_any_right (t : Ty) : join t any = any := by
  cases t <;> rw [join] <;> simp

@[simp] theorem join_never_left (t : Ty) : join never t = t := by
  cases t <;> rw [join] <;> simp

@[simp] theorem join_never_right (t : Ty) : join t never = t := by
  cases t <;> rw [join] <;> simp

theorem join_eq (ha : a.Proper) (hb : b.Proper) :
    join a b = if a = b then a else (bare a b).getD (joinCores a b) := by
  unfold join
  split
  · exact absurd rfl ha.1
  · exact absurd rfl hb.1
  · exact absurd rfl ha.2
  · exact absurd rfl hb.2
  · split_ifs
    · rfl
    · cases bare a b <;> rfl

@[simp] theorem join_self (t : Ty) : join t t = t := by
  by_cases h : t.Proper
  · rw [join_eq h h, if_pos rfl]
  · obtain rfl | rfl : t = any ∨ t = never := by unfold Proper at h; tauto
    · exact join_any_left any
    · exact join_never_left never

theorem bare_comm (a b : Ty) : bare a b = bare b a := by
  by_cases hne : a = b
  · rw [hne]
  · refine Option.ext fun f => ?_
    rw [bare_eq_some_iff hne, bare_eq_some_iff (Ne.symm hne), and_comm]

theorem commonCore_comm (x y : Option Ty) : commonCore x y = commonCore y x := by
  cases x with
  | none => cases y <;> rfl
  | some x =>
    cases y with
    | none => rfl
    | some y =>
      rw [commonCore, commonCore]
      by_cases h : x = y
      · rw [h]
      · rw [if_neg h, if_neg (Ne.symm h)]

theorem joinCores_comm (a b : Ty) : joinCores a b = joinCores b a := by
  rw [joinCores, joinCores, commonCore_comm, Bool.or_comm]

theorem join_comm (a b : Ty) : join a b = join b a := by
  by_cases ha : a.Proper
  · by_cases hb : b.Proper
    · rw [join_eq ha hb, join_eq hb ha, bare_comm, joinCores_comm]
      by_cases h : a = b
      · rw [h]
      · rw [if_neg h, if_neg (Ne.symm h)]
    · obtain rfl | rfl : b = any ∨ b = never := by unfold Proper at hb; tauto
      · rw [join_any_left, join_any_right]
      · rw [join_never_left, join_never_right]
  · obtain rfl | rfl : a = any ∨ a = never := by unfold Proper at ha; tauto
    · rw [join_any_left, join_any_right]
    · rw [join_never_left, join_never_right]

theorem compatibleWith_join_left (a b : Ty) : a.compatibleWith (join a b) = true := by
  by_cases ha : a.Proper
  · by_cases hb : b.Proper
    · rw [join_eq ha hb]
      split_ifs with hne
      · exact compatibleWith_refl a
      cases hBare : bare a b with
      | some f => exact compatibleWith_kind ((bare_eq_some_iff hne).mp hBare).1
      | none =>
        rw [Option.getD_none]
        obtain ⟨t, hJoin, hParts⟩ | ⟨hJoin, -⟩ := joinCores_of_ne hne
        · rw [hJoin]
          exact ((hParts t).mpr rfl).1.compatibleWith
        · rw [hJoin]
          exact compatibleWith_any a
    · obtain rfl | rfl : b = any ∨ b = never := by unfold Proper at hb; tauto
      · rw [join_any_right]
        exact compatibleWith_any a
      · rw [join_never_right]
        exact compatibleWith_refl a
  · obtain rfl | rfl : a = any ∨ a = never := by unfold Proper at ha; tauto
    · rw [join_any_left]
      exact compatibleWith_any any
    · exact never_compatibleWith _

/-- `join` is a commutative, idempotent upper bound. -/
theorem join_upper_bound (a b : Ty) :
    join a b = join b a ∧ join a a = a ∧
      a.compatibleWith (join a b) = true ∧ b.compatibleWith (join a b) = true := by
  refine ⟨join_comm a b, join_self a, compatibleWith_join_left a b, ?_⟩
  rw [join_comm a b]
  exact compatibleWith_join_left b a

end Ty

end Quoin.Types

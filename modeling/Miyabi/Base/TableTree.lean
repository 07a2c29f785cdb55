import Mathlib.Data.List.Induction
import Mathlib.Data.Set.Insert

-- Trees of tables kept in a flat store: each slot of a table may name a further
-- table, and a table is found from the root by a path of slot indices.
namespace Miyabi.Base.TableTree

variable {F I E : Type} (child : E → Option F) (admits : List I → Prop)

def lookup (slot : F → I → E) : F → List I → Option F
  | f, [] => some f
  | f, i :: rest =>
      match child (slot f i) with
      | none => none
      | some g => lookup slot g rest

-- The tables found along the admitted paths.
def Reached (slot : F → I → E) (root : F) : Set F :=
  {f | ∃ path, admits path ∧ lookup child slot root path = some f}

-- No table is found along two paths.
def Unshared (slot : F → I → E) (root : F) : Prop :=
  ∀ p q f, admits p → admits q → lookup child slot root p = some f →
    lookup child slot root q = some f → p = q

structure PrefixClosed : Prop where
  nil : admits []
  init : ∀ path i, admits (path ++ [i]) → admits path

variable {child admits} {slot slot' : F → I → E} {root : F}

theorem lookup_snoc (slot : F → I → E) (root : F) (path : List I) (i : I) :
    lookup child slot root (path ++ [i]) =
      (lookup child slot root path).bind (fun f => child (slot f i)) := by
  induction path generalizing root with
  | nil =>
      simp only [List.nil_append, lookup, Option.bind_some]
      cases child (slot root i) <;> rfl
  | cons j rest ih =>
      simp only [List.cons_append, lookup]
      cases child (slot root j) with
      | none => rfl
      | some g => exact ih g

theorem lookup_append (slot : F → I → E) (root : F) (path rest : List I) :
    lookup child slot root (path ++ rest) =
      (lookup child slot root path).bind (fun f => lookup child slot f rest) := by
  induction path generalizing root with
  | nil => rfl
  | cons j path ih =>
      simp only [List.cons_append, lookup]
      cases child (slot root j) with
      | none => rfl
      | some g => exact ih g

-- A store with the same children along the admitted paths holds the same tree.
def SameChildren (child : E → Option F) (admits : List I → Prop) (slot slot' : F → I → E)
    (root : F) : Prop :=
  ∀ path i f, admits (path ++ [i]) → lookup child slot root path = some f →
    child (slot' f i) = child (slot f i)

theorem lookup_congr (hc : PrefixClosed admits) (h : SameChildren child admits slot slot' root)
    (path : List I) (hp : admits path) :
    lookup child slot' root path = lookup child slot root path := by
  induction path using List.reverseRecOn with
  | nil => rfl
  | append_singleton path i ih =>
      rw [lookup_snoc, lookup_snoc, ih (hc.init path i hp)]
      cases hl : lookup child slot root path with
      | none => rfl
      | some f => exact h path i f hp hl

theorem reached_congr (hc : PrefixClosed admits) (h : SameChildren child admits slot slot' root) :
    Reached child admits slot' root = Reached child admits slot root := by
  ext f
  refine exists_congr (fun path => and_congr_right (fun hp => ?_))
  rw [lookup_congr hc h path hp]

theorem unshared_congr (hc : PrefixClosed admits) (h : SameChildren child admits slot slot' root)
    (hu : Unshared child admits slot root) : Unshared child admits slot' root := by
  intro p q f hp hq hfp hfq
  rw [lookup_congr hc h _ hp] at hfp
  rw [lookup_congr hc h _ hq] at hfq
  exact hu p q f hp hq hfp hfq

-- A set that holds the root and, with a table, all its children, holds the tree.
theorem reached_closed (S : Set F) (hroot : root ∈ S)
    (hclosed : ∀ f ∈ S, ∀ i g, child (slot f i) = some g → g ∈ S) {f : F}
    (hf : f ∈ Reached child admits slot root) : f ∈ S := by
  obtain ⟨path, -, hp⟩ := hf
  induction path generalizing root with
  | nil => exact Option.some.inj hp ▸ hroot
  | cons i rest ih =>
      rw [lookup] at hp
      cases hc : child (slot root i) with
      | none => simp [hc] at hp
      | some g =>
          simp only [hc] at hp
          exact ih (hclosed root hroot i g hc) hp

-- An empty table `g`, hung into one free slot of the tree.
structure Grafted (child : E → Option F) (admits : List I → Prop) (slot slot' : F → I → E)
    (root : F) (path : List I) (i : I) (f g : F) : Prop where
  parent : lookup child slot root path = some f
  admitted : admits (path ++ [i])
  vacant : child (slot f i) = none
  fresh : g ∉ Reached child admits slot root
  link : child (slot' f i) = some g
  empty : ∀ j, child (slot' g j) = none
  rest : ∀ f' ∈ Reached child admits slot root, ∀ j, ¬(f' = f ∧ j = i) →
    child (slot' f' j) = child (slot f' j)

variable {path : List I} {i : I} {f g : F}

theorem Grafted.lookup (h : Grafted child admits slot slot' root path i f g)
    (hc : PrefixClosed admits) (hu : Unshared child admits slot root) (p : List I)
    (hp : admits p) :
    (p = path ++ [i] → lookup child slot' root p = some g) ∧
      (p ≠ path ++ [i] → lookup child slot' root p = lookup child slot root p) := by
  have hpath := hc.init path i h.admitted
  induction p using List.reverseRecOn with
  | nil => exact ⟨fun he => by simp at he, fun _ => rfl⟩
  | append_singleton q j ih =>
      have hq := hc.init q j hp
      obtain ⟨ihnew, ihold⟩ := ih hq
      rw [lookup_snoc, lookup_snoc]
      by_cases hnew : q = path ++ [i]
      · -- Below the new table there is nothing, as there was nothing before.
        have hlen : q ++ [j] ≠ path ++ [i] := by
          intro he
          have := congrArg List.length he
          simp [hnew] at this
        refine ⟨fun he => absurd he hlen, fun _ => ?_⟩
        have hvacant : TableTree.lookup child slot root q = none := by
          rw [hnew, lookup_snoc, h.parent]
          exact h.vacant
        rw [ihnew hnew, hvacant]
        exact h.empty j
      · rw [ihold hnew]
        cases hl : TableTree.lookup child slot root q with
        | none =>
            refine ⟨fun he => ?_, fun _ => rfl⟩
            rw [(List.append_inj' he rfl).1, h.parent] at hl
            cases hl
        | some f' =>
            by_cases hslot : f' = f ∧ j = i
            · obtain ⟨rfl, rfl⟩ := hslot
              have hqp : q = path := hu q path _ hq hpath hl h.parent
              exact ⟨fun _ => h.link, fun hne => absurd (by rw [hqp]) hne⟩
            · refine ⟨fun he => ?_, fun _ => h.rest f' ⟨q, hq, hl⟩ j hslot⟩
              obtain ⟨hqp, hji⟩ := List.append_inj' he rfl
              rw [hqp, h.parent] at hl
              exact absurd ⟨(Option.some.inj hl).symm, List.singleton_inj.mp hji⟩ hslot

theorem Grafted.lookup_new (h : Grafted child admits slot slot' root path i f g)
    (hc : PrefixClosed admits) (hu : Unshared child admits slot root) :
    TableTree.lookup child slot' root (path ++ [i]) = some g :=
  (h.lookup hc hu _ h.admitted).1 rfl

-- Every table of the tree stays where it was.
theorem Grafted.lookup_old (h : Grafted child admits slot slot' root path i f g)
    (hc : PrefixClosed admits) (hu : Unshared child admits slot root) {p : List I} {t : F}
    (hp : admits p) (ht : TableTree.lookup child slot root p = some t) :
    TableTree.lookup child slot' root p = some t := by
  rw [(h.lookup hc hu p hp).2 ?_, ht]
  intro he
  rw [he, lookup_snoc, h.parent] at ht
  exact absurd (h.vacant.symm.trans ht) (by simp)

theorem Grafted.lookup_cases (h : Grafted child admits slot slot' root path i f g)
    (hc : PrefixClosed admits) (hu : Unshared child admits slot root) {p : List I} {t : F}
    (hp : admits p) (ht : TableTree.lookup child slot' root p = some t) :
    (p = path ++ [i] ∧ t = g) ∨ (p ≠ path ++ [i] ∧ TableTree.lookup child slot root p = some t) := by
  by_cases he : p = path ++ [i]
  · rw [(h.lookup hc hu p hp).1 he] at ht
    exact Or.inl ⟨he, (Option.some.inj ht).symm⟩
  · rw [(h.lookup hc hu p hp).2 he] at ht
    exact Or.inr ⟨he, ht⟩

theorem Grafted.reached (h : Grafted child admits slot slot' root path i f g)
    (hc : PrefixClosed admits) (hu : Unshared child admits slot root) :
    Reached child admits slot' root = insert g (Reached child admits slot root) := by
  ext t
  constructor
  · rintro ⟨p, hp, ht⟩
    rcases h.lookup_cases hc hu hp ht with ⟨-, rfl⟩ | ⟨-, hold⟩
    · exact Set.mem_insert _ _
    · exact Set.mem_insert_of_mem _ ⟨p, hp, hold⟩
  · intro ht
    rcases Set.mem_insert_iff.mp ht with rfl | ⟨p, hp, hold⟩
    · exact ⟨path ++ [i], h.admitted, h.lookup_new hc hu⟩
    · exact ⟨p, hp, h.lookup_old hc hu hp hold⟩

theorem Grafted.unshared (h : Grafted child admits slot slot' root path i f g)
    (hc : PrefixClosed admits) (hu : Unshared child admits slot root) :
    Unshared child admits slot' root := by
  intro p q t hp hq hpt hqt
  rcases h.lookup_cases hc hu hp hpt with ⟨hpe, htg⟩ | ⟨-, hpt'⟩
  · rcases h.lookup_cases hc hu hq hqt with ⟨hqe, -⟩ | ⟨-, hqt'⟩
    · rw [hpe, hqe]
    · exact absurd ⟨q, hq, htg ▸ hqt'⟩ h.fresh
  · rcases h.lookup_cases hc hu hq hqt with ⟨-, htg⟩ | ⟨-, hqt'⟩
    · exact absurd ⟨p, hp, htg ▸ hpt'⟩ h.fresh
    · exact hu p q t hp hq hpt' hqt'

end Miyabi.Base.TableTree

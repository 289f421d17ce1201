import Mathlib.Order.Lattice
import Mathlib.Data.List.Lex
import NamedData.Name.Basic

namespace NamedData

namespace Component

theorem eq_of_bytes {a b : Component} (h : a.bytes = b.bytes) : a = b := by
  cases a
  cases b
  exact congrArg mk h

instance : IsStrictTotalOrder Component (· < ·) where
  irrefl a := List.lt_irrefl a.bytes
  trans a _ c hab hbc := show a.bytes < c.bytes from List.lt_trans hab hbc
  trichotomous _ _ hab hba :=
    eq_of_bytes (List.le_antisymm (List.not_lt.mp hba) (List.not_lt.mp hab))

instance : LinearOrder Component := linearOrderOfSTO (· < ·)

theorem compare_eq_lt {a b : Component} : compare a b = .lt ↔ a < b :=
  compareOfLessAndEq_eq_lt

theorem compare_eq_gt {a b : Component} : compare a b = .gt ↔ b < a :=
  compareOfLessAndEq_eq_gt le_antisymm le_total not_le a b

theorem compare_eq_eq {a b : Component} : compare a b = .eq ↔ a = b :=
  compareOfLessAndEq_eq_eq le_refl not_le

end Component

namespace Name

theorem eq_of_components {n m : Name} (h : n.components = m.components) : n = m := by
  cases n
  cases m
  exact congrArg mk h

instance : IsStrictTotalOrder Name (· < ·) where
  irrefl n := List.lt_irrefl n.components
  trans a _ c hab hbc := show a.components < c.components from List.lt_trans hab hbc
  trichotomous _ _ hab hba :=
    eq_of_components (List.le_antisymm (List.not_lt.mp hba) (List.not_lt.mp hab))

instance : LinearOrder Name := linearOrderOfSTO (· < ·)

theorem compare_eq_lt {a b : Name} : compare a b = .lt ↔ a < b :=
  compareOfLessAndEq_eq_lt

theorem compare_eq_gt {a b : Name} : compare a b = .gt ↔ b < a :=
  compareOfLessAndEq_eq_gt le_antisymm le_total not_le a b

theorem compare_eq_eq {a b : Name} : compare a b = .eq ↔ a = b :=
  compareOfLessAndEq_eq_eq le_refl not_le

theorem compare_ne_gt {a b : Name} : compare a b ≠ .gt ↔ a ≤ b := by
  rw [ne_eq, compare_eq_gt, not_lt]

def append (n m : Name) : Name := ⟨n.components ++ m.components⟩

instance : Append Name := ⟨append⟩

@[simp] theorem components_append (n m : Name) :
    (n ++ m).components = n.components ++ m.components := rfl

@[simp] theorem root_components : root.components = [] := rfl

theorem isRoot_iff {n : Name} : n.isRoot = true ↔ n = .root := by
  rw [isRoot, List.isEmpty_iff]
  exact ⟨fun h => eq_of_components h, fun h => by rw [h]; rfl⟩

theorem append_root (n : Name) : n ++ root = n := eq_of_components (List.append_nil _)

theorem append_lt_append (n : Name) {a b : Name} (h : a < b) : n ++ a < n ++ b :=
  List.append_left_lt h

theorem isPrefixOf_iff {n m : Name} : n.isPrefixOf m = true ↔ ∃ p, m = n ++ p := by
  rw [isPrefixOf, List.isPrefixOf_iff_prefix]
  constructor
  · rintro ⟨q, hq⟩
    exact ⟨⟨q⟩, eq_of_components hq.symm⟩
  · rintro ⟨p, rfl⟩
    exact ⟨p.components, rfl⟩

theorem isPrefixOf_of_length_lt {n m : Name} (h : m.length < n.length) :
    n.isPrefixOf m = false := by
  rw [← Bool.not_eq_true, isPrefixOf, List.isPrefixOf_iff_prefix]
  intro hbegin
  have hlen : n.length ≤ m.length := hbegin.length_le
  omega

end Name

/-- A path comes before every longer one that it begins. -/
theorem lt_append_cons (path : List Component) (c : Component) (q : List Component) :
    path < path ++ c :: q := by
  have h : path ++ [] < path ++ c :: q := List.append_left_lt (List.nil_lt_cons c q)
  rwa [List.append_nil] at h

/-- Two paths compare at the first component in which they differ. -/
theorem append_cons_lt (path : List Component) {c d : Component} (h : c < d)
    (p q : List Component) : path ++ c :: p < path ++ d :: q :=
  List.append_left_lt (List.cons_lt_cons_iff.mpr (Or.inl h))

end NamedData

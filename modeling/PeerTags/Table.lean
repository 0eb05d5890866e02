/-! Finite tables kept in the order of their keys, at most one entry a key. A
table is determined by its look-ups (`Table.ext`), so two histories that leave
the same value under every key leave the same table. -/
namespace PeerTags

/-- Entries whose keys strictly increase. -/
structure Table (κ ν : Type) [Ord κ] where
  entries : List (κ × ν)
  ordered : entries.Pairwise fun a b => compare a.1 b.1 = .lt

namespace Table

variable {κ ν μ : Type} [Ord κ]

/-- Put a value under a key, in place of the one that is there. -/
def put (k : κ) (v : ν) : List (κ × ν) → List (κ × ν)
  | [] => [(k, v)]
  | e :: rest =>
    match compare k e.1 with
    | .lt => (k, v) :: e :: rest
    | .eq => (k, v) :: rest
    | .gt => e :: put k v rest

theorem eq_or_mem_of_mem_put {k : κ} {v : ν} {e : κ × ν} {l : List (κ × ν)} (h : e ∈ put k v l) :
    e = (k, v) ∨ e ∈ l := by
  induction l with
  | nil => simpa [put] using h
  | cons d rest ih =>
    simp only [put] at h
    split at h <;> grind

theorem pairwise_put [Std.TransOrd κ] [Std.LawfulEqOrd κ] (k : κ) (v : ν) {l : List (κ × ν)}
    (h : l.Pairwise fun a b => compare a.1 b.1 = .lt) :
    (put k v l).Pairwise fun a b => compare a.1 b.1 = .lt := by
  induction l with
  | nil => simp [put]
  | cons d rest ih =>
    obtain ⟨head, tail⟩ := List.pairwise_cons.mp h
    simp only [put]
    split
    · rename_i less
      refine List.pairwise_cons.mpr ⟨fun e he => ?_, h⟩
      rcases List.mem_cons.mp he with rfl | he
      · exact less
      · exact Std.TransCmp.lt_trans less (head e he)
    · rename_i same
      have : k = d.1 := Std.LawfulEqCmp.eq_of_compare same
      exact List.pairwise_cons.mpr ⟨fun e he => this ▸ head e he, tail⟩
    · rename_i greater
      refine List.pairwise_cons.mpr ⟨fun e he => ?_, ih tail⟩
      rcases eq_or_mem_of_mem_put he with rfl | he
      · exact Std.OrientedCmp.lt_of_gt greater
      · exact head e he

def empty : Table κ ν := ⟨[], .nil⟩
instance : EmptyCollection (Table κ ν) := ⟨empty⟩
instance : Inhabited (Table κ ν) := ⟨empty⟩

/-- The value under a key. -/
def get? (t : Table κ ν) (k : κ) : Option ν :=
  (t.entries.find? fun e => compare e.1 k == .eq).map (·.2)

def contains (t : Table κ ν) (k : κ) : Bool := (t.get? k).isSome
def keys (t : Table κ ν) : List κ := t.entries.map (·.1)
def size (t : Table κ ν) : Nat := t.entries.length

def insert [Std.TransOrd κ] [Std.LawfulEqOrd κ] (t : Table κ ν) (k : κ) (v : ν) : Table κ ν :=
  ⟨put k v t.entries, pairwise_put k v t.ordered⟩

/-- Keep, drop or change each entry on its own. -/
def filterMap (t : Table κ ν) (f : κ → ν → Option μ) : Table κ μ where
  entries := t.entries.filterMap fun e => (f e.1 e.2).map (e.1, ·)
  ordered := t.ordered.filterMap _ (by
    intro a b less c hc d hd
    simp only [Option.map_eq_some_iff] at hc hd
    obtain ⟨_, _, rfl⟩ := hc
    obtain ⟨_, _, rfl⟩ := hd
    exact less)

/-- Take a key out. -/
def erase (t : Table κ ν) (k : κ) : Table κ ν :=
  t.filterMap fun k' v => if compare k' k = .eq then none else some v

@[simp] theorem get?_empty (k : κ) : (∅ : Table κ ν).get? k = none := rfl

variable [Std.TransOrd κ] [Std.LawfulEqOrd κ]

omit [Std.TransOrd κ] in
theorem eq_of_mem {t : Table κ ν} {k : κ} {v w : ν} (hv : (k, v) ∈ t.entries) (hw : (k, w) ∈ t.entries) :
    v = w := by
  obtain ⟨l, ordered⟩ := t
  simp only at hv hw
  induction l with
  | nil => cases hv
  | cons d rest ih =>
    obtain ⟨head, tail⟩ := List.pairwise_cons.mp ordered
    have no_loop : compare k k ≠ .lt := by simp [Std.ReflCmp.compare_self]
    rcases List.mem_cons.mp hv with first | inTail <;> rcases List.mem_cons.mp hw with first' | inTail'
    · exact (Prod.mk.inj (first.trans first'.symm)).2
    · subst first; exact (no_loop (head (k, w) inTail')).elim
    · subst first'; exact (no_loop (head (k, v) inTail)).elim
    · exact ih tail inTail inTail'

omit [Std.TransOrd κ] in
theorem get?_eq_some_iff {t : Table κ ν} {k : κ} {v : ν} : t.get? k = some v ↔ (k, v) ∈ t.entries := by
  unfold get?
  constructor
  · intro h
    obtain ⟨⟨k', w⟩, found, rfl⟩ := Option.map_eq_some_iff.mp h
    have same : k' = k := by simpa using List.find?_some found
    exact same ▸ List.mem_of_find?_eq_some found
  · intro h
    cases found : t.entries.find? fun e => compare e.1 k == .eq with
    | none =>
      have := List.find?_eq_none.mp found _ h
      simp [Std.ReflCmp.compare_self] at this
    | some e =>
      obtain ⟨k', w⟩ := e
      have same : k' = k := by simpa using List.find?_some found
      have there : (k, w) ∈ t.entries := same ▸ List.mem_of_find?_eq_some found
      exact congrArg some (eq_of_mem there h)

theorem mem_put_iff {k k' : κ} {v v' : ν} {l : List (κ × ν)}
    (h : l.Pairwise fun a b => compare a.1 b.1 = .lt) :
    (k', v') ∈ put k v l ↔ (k' = k ∧ v' = v) ∨ (k' ≠ k ∧ (k', v') ∈ l) := by
  induction l with
  | nil => simp [put]
  | cons d rest ih =>
    obtain ⟨head, tail⟩ := List.pairwise_cons.mp h
    have away : ∀ {a : κ}, compare a k = .lt ∨ compare k a = .lt → a ≠ k := by
      rintro a less rfl
      simp [Std.ReflCmp.compare_self] at less
    simp only [put]
    split
    · rename_i less
      have hd : d.1 ≠ k := away (.inr less)
      have hr : ∀ e ∈ rest, e.1 ≠ k := fun e he => away (.inr (Std.TransCmp.lt_trans less (head e he)))
      grind
    · rename_i same
      have hd : k = d.1 := Std.LawfulEqCmp.eq_of_compare same
      have hr : ∀ e ∈ rest, e.1 ≠ k := fun e he => away (.inr (hd ▸ head e he))
      grind
    · rename_i greater
      have hd : d.1 ≠ k := away (.inl (Std.OrientedCmp.lt_of_gt greater))
      have := ih tail
      grind

theorem get?_insert (t : Table κ ν) (k k' : κ) (v : ν) [Decidable (k' = k)] :
    (t.insert k v).get? k' = if k' = k then some v else t.get? k' := by
  apply Option.ext
  intro w
  have member : (k', w) ∈ put k v t.entries ↔ (k' = k ∧ w = v) ∨ (k' ≠ k ∧ (k', w) ∈ t.entries) :=
    mem_put_iff t.ordered
  rw [get?_eq_some_iff, insert, member]
  split <;> rename_i same
  · simp [same, eq_comm]
  · simp [same, get?_eq_some_iff]

omit [Std.TransOrd κ] in
theorem get?_filterMap (t : Table κ ν) (f : κ → ν → Option μ) (k : κ) :
    (t.filterMap f).get? k = (t.get? k).bind (f k) := by
  apply Option.ext
  intro w
  rw [get?_eq_some_iff, filterMap]
  simp only [List.mem_filterMap, Option.map_eq_some_iff, Option.bind_eq_some_iff, get?_eq_some_iff]
  constructor
  · rintro ⟨⟨k', v⟩, member, u, value, same⟩
    cases same
    exact ⟨v, member, value⟩
  · rintro ⟨v, member, value⟩
    exact ⟨(k, v), member, w, value, rfl⟩

omit [Std.TransOrd κ] in
theorem get?_erase (t : Table κ ν) (k k' : κ) [Decidable (k' = k)] :
    (t.erase k).get? k' = if k' = k then none else t.get? k' := by
  rw [erase, get?_filterMap]
  by_cases h : k' = k
  · subst h; cases t.get? k' <;> simp [Std.ReflCmp.compare_self]
  · have : compare k' k ≠ .eq := fun same => h (Std.LawfulEqCmp.eq_of_compare same)
    cases t.get? k' <;> simp [h, this]

omit [Std.TransOrd κ] in
theorem mem_keys_iff {t : Table κ ν} {k : κ} : k ∈ t.keys ↔ ∃ v, t.get? k = some v := by
  simp [keys, get?_eq_some_iff]

omit [Std.TransOrd κ] in
theorem mem_keys_iff_contains {t : Table κ ν} {k : κ} : k ∈ t.keys ↔ t.contains k = true := by
  rw [mem_keys_iff, contains, Option.isSome_iff_exists]

omit [Std.TransOrd κ] in
theorem nodup_keys (t : Table κ ν) : t.keys.Nodup := by
  rw [keys, List.Nodup, List.pairwise_map]
  refine t.ordered.imp fun {a b} less same => ?_
  rw [same] at less
  exact absurd less (by simp [Std.ReflCmp.compare_self])

/-- Look-ups determine a table. -/
@[ext] theorem ext {s t : Table κ ν} (h : ∀ k, s.get? k = t.get? k) : s = t := by
  have members : ∀ e, e ∈ s.entries ↔ e ∈ t.entries := by
    rintro ⟨k, v⟩
    rw [← get?_eq_some_iff, ← get?_eq_some_iff, h]
  obtain ⟨l, hl⟩ := s
  obtain ⟨m, hm⟩ := t
  simp only at members
  suffices l = m by subst this; rfl
  clear h
  have irrefl : ∀ e : κ × ν, compare e.1 e.1 ≠ .lt := fun e => by simp [Std.ReflCmp.compare_self]
  have asymm : ∀ a b : κ × ν, compare a.1 b.1 = .lt → compare b.1 a.1 ≠ .lt := fun a b h h' =>
    irrefl a (Std.TransCmp.lt_trans h h')
  induction l generalizing m with
  | nil =>
    cases m with
    | nil => rfl
    | cons d rest => exact absurd ((members d).mpr List.mem_cons_self) (by simp)
  | cons c rest ih =>
    cases m with
    | nil => exact absurd ((members c).mp List.mem_cons_self) (by simp)
    | cons d rest' =>
      obtain ⟨hc, hr⟩ := List.pairwise_cons.mp hl
      obtain ⟨hd, hr'⟩ := List.pairwise_cons.mp hm
      have same : c = d := by
        rcases List.mem_cons.mp ((members c).mp List.mem_cons_self) with same | inLeft
        · exact same
        · rcases List.mem_cons.mp ((members d).mpr List.mem_cons_self) with same | inRight
          · exact same.symm
          · exact absurd (hd c inLeft) (asymm _ _ (hc d inRight))
      subst same
      congr 1
      refine ih hr rest' hr' fun e => ?_
      constructor
      · intro he
        rcases List.mem_cons.mp ((members e).mp (List.mem_cons_of_mem _ he)) with rfl | h
        · exact absurd (hc e he) (irrefl e)
        · exact h
      · intro he
        rcases List.mem_cons.mp ((members e).mpr (List.mem_cons_of_mem _ he)) with rfl | h
        · exact absurd (hd e he) (irrefl e)
        · exact h

/-- Which keys have a value determines the list of keys. -/
theorem keys_eq_of_contains {s : Table κ ν} {t : Table κ μ} (h : ∀ k, s.contains k = t.contains k) :
    s.keys = t.keys := by
  have bare {ρ : Type} (u : Table κ ρ) : (u.filterMap fun _ _ => some ()).keys = u.keys := by
    simp [keys, filterMap, List.filterMap_eq_map']
  have value {ρ : Type} (u : Table κ ρ) (k : κ) :
      (u.filterMap fun _ _ => some ()).get? k = if u.contains k then some () else none := by
    rw [get?_filterMap, contains]
    cases u.get? k <;> rfl
  have same : (s.filterMap fun _ _ => some ()) = t.filterMap fun _ _ => some () :=
    ext fun k => by rw [value, value, h]
  rw [← bare s, ← bare t, same]

end Table
end PeerTags

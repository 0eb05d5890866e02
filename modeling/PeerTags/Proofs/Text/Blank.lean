import PeerTags.Text.Blank
/-! What `trim` leaves of a text: the part between two stretches of white space that neither starts
nor ends with any. -/
namespace PeerTags.Text

/-- A text is white space, a core that neither starts nor ends with white space, and white space. -/
inductive Trimmed : List Char → List Char → Prop
  | intro {front core back : List Char} (before : ∀ c ∈ front, isBlank c) (after : ∀ c ∈ back, isBlank c)
      (first : ∀ c, core.head? = some c → isBlank c = false) (last : ∀ c, core.getLast? = some c → isBlank c = false) :
      Trimmed (front ++ core ++ back) core

theorem dropWhile_isBlank {front rest : List Char} (blank : ∀ c ∈ front, isBlank c)
    (stop : ∀ c, rest.head? = some c → isBlank c = false) : (front ++ rest).dropWhile isBlank = rest := by
  rw [List.dropWhile_append_of_pos blank]
  cases rest with
  | nil => rfl
  | cons c rest => rw [List.dropWhile_cons_of_neg (by simp [stop c rfl])]

theorem Trimmed.trim_eq {s core : List Char} (trimmed : Trimmed s core) : trim s = core := by
  obtain @⟨front, core, back, before, after, first, last⟩ := trimmed
  cases core with
  | nil =>
      have blank : ∀ c ∈ front ++ back, isBlank c := by
        intro c member
        exact (List.mem_append.mp member).elim (before c) (after c)
      have nothing : (front ++ back ++ []).dropWhile isBlank = [] := dropWhile_isBlank blank nofun
      rw [List.append_nil] at nothing
      rw [trim, List.append_nil, nothing]
      rfl
  | cons c core =>
      have blank : ∀ c ∈ back.reverse, isBlank c := by
        intro c member
        exact after c (List.mem_reverse.mp member)
      have stop : ∀ d, (c :: core).reverse.head? = some d → isBlank d = false := by
        intro d found
        rw [List.head?_reverse] at found
        exact last d found
      have start : (front ++ (c :: core ++ back)).dropWhile isBlank = c :: core ++ back :=
        dropWhile_isBlank before first
      rw [trim, List.append_assoc, start, List.reverse_append, dropWhile_isBlank blank stop, List.reverse_reverse]

theorem isBlank_of_mem_takeWhile {s : List Char} {c : Char} (member : c ∈ s.takeWhile isBlank) : isBlank c :=
  List.all_eq_true.mp List.all_takeWhile c member

theorem isBlank_of_head?_dropWhile {s : List Char} {c : Char} (found : (s.dropWhile isBlank).head? = some c) :
    isBlank c = false := by
  have stopped := List.head?_dropWhile_not isBlank s
  rw [found] at stopped
  simpa using stopped

theorem trimmed_trim (s : List Char) : Trimmed s (trim s) := by
  let started := s.dropWhile isBlank
  have right : started = trim s ++ (started.reverse.takeWhile isBlank).reverse := by
    rw [trim, ← List.reverse_append, List.takeWhile_append_dropWhile, List.reverse_reverse]
  have whole : s = s.takeWhile isBlank ++ trim s ++ (started.reverse.takeWhile isBlank).reverse := by
    rw [List.append_assoc, ← right, List.takeWhile_append_dropWhile]
  have trimmed : Trimmed (s.takeWhile isBlank ++ trim s ++ (started.reverse.takeWhile isBlank).reverse) (trim s) := by
    apply Trimmed.intro
    · intro c member
      exact isBlank_of_mem_takeWhile member
    · intro c member
      exact isBlank_of_mem_takeWhile (List.mem_reverse.mp member)
    · intro c found
      apply isBlank_of_head?_dropWhile (s := s)
      show started.head? = some c
      rw [right, List.head?_append, found]
      rfl
    · intro c found
      rw [trim, List.getLast?_reverse] at found
      exact isBlank_of_head?_dropWhile found
  rwa [← whole] at trimmed

/-- Trimming finds the core of a text. -/
theorem trim_eq_iff {s core : List Char} : trim s = core ↔ Trimmed s core := by
  constructor
  · rintro rfl
    exact trimmed_trim s
  · exact Trimmed.trim_eq

end PeerTags.Text

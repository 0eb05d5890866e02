import PeerTags.Json.Value
import PeerTags.Proofs.Json.Token
/-! A value is read back from its tokens, and so from every text that has them, however they are written and
spaced. -/
namespace PeerTags.Json

theorem sizeOf_member {m : Member} {members : List Member} (member : m ∈ members) : sizeOf m.2 < sizeOf members := by
  have within : sizeOf m < sizeOf members := List.sizeOf_lt_of_mem member
  have part : sizeOf m = 1 + sizeOf m.1 + sizeOf m.2 := rfl
  omega

theorem induction {P : Json → Prop} (null : P .null) (bool : ∀ b, P (.bool b)) (number : ∀ i, P (.number i))
    (string : ∀ s, P (.string s)) (array : ∀ items, (∀ v ∈ items, P v) → P (.array items))
    (object : ∀ members, (∀ m : Member, m ∈ members → P m.2) → P (.object members)) : ∀ v, P v
  | .null => null
  | .bool b => bool b
  | .number i => number i
  | .string s => string s
  | .array items => array items fun v _ => induction null bool number string array object v
  | .object members => object members fun m _ => induction null bool number string array object m.2
decreasing_by
  · have := List.sizeOf_lt_of_mem ‹v ∈ items›
    simp only [Json.array.sizeOf_spec]
    omega
  · have := sizeOf_member ‹m ∈ members›
    simp only [Json.object.sizeOf_spec]
    omega

/-- The tokens of a value, commas between the parts of a container. -/
def tokens : Json → List Token
  | .null => [.null]
  | .bool b => [.bool b]
  | .number i => [.number i]
  | .string s => [.string s]
  | .array items => .leftBracket :: ([.comma].intercalate (items.map tokens) ++ [.rightBracket])
  | .object members =>
    .leftBrace :: ([.comma].intercalate (members.map fun m => .string m.1 :: .colon :: tokens m.2) ++ [.rightBrace])
decreasing_by
  · have := List.sizeOf_lt_of_mem ‹_ ∈ items›
    simp only [Json.array.sizeOf_spec]
    omega
  · have := sizeOf_member ‹_ ∈ members›
    simp only [Json.object.sizeOf_spec]
    omega

/-! Reading. -/

/-- Whatever container a value stands in, its tokens leave the reader after the value. -/
def Read (v : Json) : Prop :=
  ∀ (inside : List Frame) (rest : List Token),
    (v.tokens ++ rest).foldlM Reader.step ⟨inside, .value⟩ = rest.foldlM Reader.step ⟨inside, .after v⟩

/-- The items that come after those already read, and the end of the array. -/
theorem read_items {v : Json} {items : List Json} (h : ∀ w ∈ v :: items, w.Read) (done : List Json)
    (inside : List Frame) (rest : List Token) :
    ([.comma].intercalate ((v :: items).map tokens) ++ .rightBracket :: rest).foldlM Reader.step
        ⟨.array done :: inside, .value⟩ =
      rest.foldlM Reader.step ⟨inside, .after (.array (done.reverse ++ v :: items))⟩ := by
  induction items generalizing v done with
  | nil =>
      have last : v.Read := h v List.mem_cons_self
      rw [List.map_singleton, List.intercalate_singleton, last]
      simp [Reader.step, Reader.afterValue]
  | cons w items ih =>
      have first : v.Read := h v List.mem_cons_self
      have later := ih (fun u member => h u (List.mem_cons_of_mem v member)) (v :: done)
      rw [List.map_cons, List.map_cons, List.intercalate_cons_cons, List.append_assoc, List.append_assoc, first]
      simpa [Reader.step, Reader.afterValue] using later

theorem read_member {m : Member} (h : m.2.Read) (done : List Member) (inside : List Frame) (rest : List Token) :
    ((.string m.1 :: .colon :: m.2.tokens) ++ rest).foldlM Reader.step ⟨inside, .key done⟩ =
      rest.foldlM Reader.step ⟨.object done m.1 :: inside, .after m.2⟩ := by
  simpa [Reader.step] using h (.object done m.1 :: inside) rest

/-- The members that come after those already read, and the end of the object. -/
theorem read_members {m : Member} {members : List Member} (h : ∀ n : Member, n ∈ m :: members → n.2.Read)
    (done : List Member) (inside : List Frame) (rest : List Token) :
    ([.comma].intercalate ((m :: members).map fun n => .string n.1 :: .colon :: n.2.tokens) ++
        .rightBrace :: rest).foldlM Reader.step ⟨inside, .key done⟩ =
      rest.foldlM Reader.step ⟨inside, .after (.object (done.reverse ++ m :: members))⟩ := by
  induction members generalizing m done with
  | nil =>
      have last : m.2.Read := h m List.mem_cons_self
      rw [List.map_singleton, List.intercalate_singleton, read_member last]
      simp [Reader.step, Reader.afterValue]
  | cons n members ih =>
      have first : m.2.Read := h m List.mem_cons_self
      have later := ih (fun u member => h u (List.mem_cons_of_mem m member)) (m :: done)
      rw [List.map_cons, List.map_cons, List.intercalate_cons_cons, List.append_assoc, List.append_assoc,
        read_member first]
      simpa [Reader.step, Reader.afterValue] using later

/-- No value begins as an array ends. -/
theorem tokens_head (v : Json) : ∃ t ts, v.tokens = t :: ts ∧ t ≠ .rightBracket := by
  cases v <;> simp [tokens]

/-- Before its first item an array is as one that waits for an item. -/
theorem step_valueOrEnd {t : Token} (opening : t ≠ .rightBracket) (inside : List Frame) :
    Reader.step ⟨inside, .valueOrEnd⟩ t = Reader.step ⟨.array [] :: inside, .value⟩ t := by
  cases t with
  | rightBracket => contradiction
  | _ => rfl

theorem Read.array {items : List Json} (h : ∀ v ∈ items, v.Read) : (array items).Read := by
  intro inside rest
  rw [tokens, List.cons_append, List.append_assoc, List.singleton_append]
  cases items with
  | nil => rfl
  | cons v items =>
      obtain ⟨t, ts, first, opening⟩ := tokens_head v
      obtain ⟨us, all⟩ : ∃ us, [Token.comma].intercalate ((v :: items).map tokens) = t :: us := by
        cases items <;> simp [first]
      have inner := read_items h [] inside rest
      rw [all, List.cons_append, List.foldlM_cons, ← step_valueOrEnd opening] at inner
      rw [all]
      exact inner

theorem Read.object {members : List Member} (h : ∀ m : Member, m ∈ members → m.2.Read) : (object members).Read := by
  intro inside rest
  rw [tokens, List.cons_append, List.append_assoc, List.singleton_append]
  cases members with
  | nil => rfl
  | cons m members =>
      obtain ⟨us, all⟩ : ∃ us, [Token.comma].intercalate
          ((m :: members).map fun n => .string n.1 :: .colon :: n.2.tokens) = .string m.1 :: us := by
        cases members <;> simp
      have inner := read_members h [] inside rest
      rw [all] at inner ⊢
      exact inner

theorem read_tokens (v : Json) : v.Read := by
  induction v using Json.induction with
  | null | bool | number | string =>
      intro inside rest
      rw [tokens]
      rfl
  | array items ih => exact .array ih
  | object members ih => exact .object ih

theorem ofTokens?_tokens (v : Json) : ofTokens? v.tokens = some v := by
  have whole := read_tokens v [] []
  rw [List.append_nil] at whole
  rw [ofTokens?, Reader.start, whole]
  rfl

/-! Nothing else is read as a value. What leads the reader to a place is what it holds by then: the beginnings of
the containers that it is inside of, and what it has read of the next value. -/

/-- The parts of a container that other parts come after. -/
def before {α : Type} (row : α → List Token) (xs : List α) : List Token := xs.flatMap fun x => row x ++ [.comma]

def memberTokens (m : Member) : List Token := .string m.1 :: .colon :: m.2.tokens

def Frame.tokens : Frame → List Token
  | .array items => .leftBracket :: before Json.tokens items.reverse
  | .object members key => .leftBrace :: (before memberTokens members.reverse ++ [.string key, .colon])

def Place.tokens : Place → List Token
  | .value => []
  | .valueOrEnd => [.leftBracket]
  | .keyOrEnd => [.leftBrace]
  | .key members => .leftBrace :: before memberTokens members.reverse
  | .colon members content => .leftBrace :: (before memberTokens members.reverse ++ [.string content])
  | .after v => v.tokens

def Reader.tokens (r : Reader) : List Token := r.inside.reverse.flatMap Frame.tokens ++ r.place.tokens

theorem before_concat {α : Type} (row : α → List Token) (xs : List α) (x : α) :
    before row (xs ++ [x]) = before row xs ++ row x ++ [.comma] := by
  simp [before]

theorem intercalate_concat {α : Type} (row : α → List Token) (xs : List α) (x : α) :
    [.comma].intercalate ((xs ++ [x]).map row) = before row xs ++ row x := by
  induction xs with
  | nil => simp [before]
  | cons y ys ih =>
      cases ys with
      | nil => simp [before]
      | cons z zs => simpa [before, List.intercalate_cons_cons] using ih

theorem tokens_array_concat (items : List Json) (v : Json) :
    (array (items ++ [v])).tokens = .leftBracket :: (before tokens items ++ v.tokens ++ [.rightBracket]) := by
  rw [tokens, intercalate_concat]

theorem tokens_object_concat (members : List Member) (m : Member) :
    (object (members ++ [m])).tokens =
      .leftBrace :: (before memberTokens members ++ memberTokens m ++ [.rightBrace]) := by
  rw [tokens]
  exact congrArg (.leftBrace :: · ++ [.rightBrace]) (intercalate_concat memberTokens members m)

theorem Reader.beginValue_tokens {inside : List Frame} {t : Token} {r : Reader} (begun : beginValue inside t = some r) :
    r.tokens = inside.reverse.flatMap Frame.tokens ++ [t] := by
  cases t <;> cases begun <;> simp [Reader.tokens, Place.tokens, Json.tokens]

theorem Reader.afterValue_tokens {v : Json} {inside : List Frame} {t : Token} {r : Reader}
    (gone : afterValue v inside t = some r) :
    r.tokens = inside.reverse.flatMap Frame.tokens ++ v.tokens ++ [t] := by
  unfold afterValue at gone
  split at gone
  all_goals cases gone
  · simp [Reader.tokens, Place.tokens, Frame.tokens, before_concat]
  · simp [Reader.tokens, Place.tokens, Frame.tokens, tokens_array_concat]
  · simp [Reader.tokens, Place.tokens, Frame.tokens, before_concat, memberTokens]
  · simp [Reader.tokens, Place.tokens, Frame.tokens, tokens_object_concat, memberTokens]

/-- A step adds its token to those that the reader holds. -/
theorem Reader.step_tokens {r r' : Reader} {t : Token} (stepped : r.step t = some r') :
    r'.tokens = r.tokens ++ [t] := by
  obtain ⟨inside, place⟩ := r
  unfold step at stepped
  split at stepped
  case h_1 =>
    rename_i same
    cases same
    rw [beginValue_tokens stepped]
    simp [Reader.tokens, Place.tokens]
  case h_3 =>
    rename_i same _
    cases same
    rw [beginValue_tokens stepped]
    simp [Reader.tokens, Place.tokens, Frame.tokens, before]
  case h_8 =>
    rename_i same
    cases same
    exact afterValue_tokens stepped
  case h_9 => cases stepped
  all_goals
    rename_i same
    cases same
    cases stepped
    simp [Reader.tokens, Place.tokens, Frame.tokens, before, Json.tokens]

theorem Reader.run_tokens {ts : List Token} {r r' : Reader} (run : ts.foldlM step r = some r') :
    r'.tokens = r.tokens ++ ts := by
  induction ts generalizing r with
  | nil =>
      cases run
      exact (List.append_nil _).symm
  | cons t ts ih =>
      obtain ⟨next, first, later⟩ := Option.bind_eq_some_iff.mp run
      rw [ih later, step_tokens first, List.append_assoc, List.singleton_append]

theorem tokens_of_ofTokens? {ts : List Token} {v : Json} (read : ofTokens? ts = some v) : v.tokens = ts := by
  obtain ⟨⟨inside, place⟩, run, whole⟩ := Option.bind_eq_some_iff.mp read
  have held := Reader.run_tokens run
  unfold Reader.result? at whole
  split at whole
  · rename_i same
    cases same
    cases whole
    simpa [Reader.tokens, Reader.start, Place.tokens] using held
  · cases whole

/-! Texts. -/

/-- A text of a value: its tokens, however each is written, and any white space around them. -/
def Written (text : String) (v : Json) : Prop := Spaced v.tokens text.toList

theorem apart_tokens (v : Json) : Apart v.tokens := by
  induction v using Json.induction with
  | null | bool | number | string =>
      rw [tokens]
      exact .last _
  | array items ih =>
      rw [tokens]
      exact .mark rfl ((Apart.intercalate ih).append rfl .nil)
  | object members ih =>
      rw [tokens]
      refine .mark rfl (Apart.append rfl (Apart.intercalate fun m member => ?_) .nil)
      exact .between _ rfl (ih m member)

theorem parse?_of_written {text : String} {v : Json} (h : Written text v) : parse? text = some v := by
  rw [parse?, h.tokens?_eq v.apart_tokens, Option.bind_some, ofTokens?_tokens]

/-- The texts that are read as a value are just those of that value. -/
theorem parse?_eq_some_iff {text : String} {v : Json} : parse? text = some v ↔ Written text v := by
  refine ⟨fun read => ?_, parse?_of_written⟩
  obtain ⟨ts, tokens, value⟩ := Option.bind_eq_some_iff.mp read
  rw [Written, tokens_of_ofTokens? value]
  exact spaced_of_tokens? tokens

theorem spaced_quote (s : String) : Spaced (string (some s)).tokens (quote s.toList) := by
  rw [tokens, ← List.append_nil (quote s.toList)]
  exact .lexeme (lexeme_quote s) .empty

theorem spaced_ofInt (i : Int) : Spaced (number (some i)).tokens (Text.Decimal.ofInt i) := by
  rw [tokens, ← List.append_nil (Text.Decimal.ofInt i)]
  exact .lexeme (.number (.integer i)) .empty

theorem spaced_array {α : Type} {text : α → List Char} {value : α → Json} {xs : List α}
    (h : ∀ x ∈ xs, Spaced (value x).tokens (text x)) :
    Spaced (array (xs.map value)).tokens ('[' :: [','].intercalate (xs.map text) ++ [']']) := by
  rw [tokens, List.map_map]
  exact .mark rfl ((Spaced.intercalate h).append (.mark rfl .empty))

theorem spaced_object {α : Type} {key : α → String} {text : α → List Char} {value : α → Json} {xs : List α}
    (h : ∀ x ∈ xs, Spaced (value x).tokens (text x)) :
    Spaced (object (xs.map fun x => (some (key x), value x))).tokens
      ('\x7b' :: [','].intercalate (xs.map fun x => quote (key x).toList ++ ':' :: text x) ++ ['\x7d']) := by
  have member : ∀ x ∈ xs, Spaced (.string (some (key x)) :: .colon :: (value x).tokens)
      (quote (key x).toList ++ ':' :: text x) := by
    intro x within
    exact .lexeme (lexeme_quote (key x)) (.mark rfl (h x within))
  rw [tokens, List.map_map]
  exact .mark rfl ((Spaced.intercalate member).append (.mark rfl .empty))

end PeerTags.Json

import PeerTags.Proofs.Options.Json
/-! The forms of a JSON text for options. An object may name its fields in any order, between any
other members, and an array gives the first fields in theirs; white space and the spelling of tokens
say nothing. All that counts is which fields are set to what: those that are not given keep their
defaults, and none may be given twice. -/
namespace PeerTags.Options

/-- A member of an object: a field with what it is set to, or a key of no field with any value. -/
inductive Entry where
  | known (s : Setting)
  | unknown (key : String) (value : Json) (foreign : ∀ f : Field, f.key ≠ key)

namespace Entry

def member : Entry → Json.Member
  | known s => s.member
  | unknown key value _ => (some key, value)

def setting? : Entry → Option Setting
  | known s => some s
  | unknown .. => none

end Entry

/-- What the members of an object set. -/
def given (entries : List Entry) : List Setting := entries.filterMap Entry.setting?

/-- No field is set twice. -/
def Distinct (settings : List Setting) : Prop := (settings.map Setting.field).Nodup

/-- Just these fields are set, and all others have their defaults. -/
structure Sets (o : Options) (settings : List Setting) : Prop where
  given : ∀ s ∈ settings, o.get s.field = s
  rest : ∀ f, (∀ s ∈ settings, s.field ≠ f) → o.get f = default.get f

/-- Options are told by what is set, in whatever order. -/
theorem Sets.unique {o o' : Options} {settings settings' : List Setting} (h : o.Sets settings) (h' : o'.Sets settings')
    (same : ∀ s, s ∈ settings' ↔ s ∈ settings) : o' = o := by
  apply ext_get
  intro f
  by_cases there : ∃ s ∈ settings, s.field = f
  · obtain ⟨s, member, rfl⟩ := there
    rw [h.given s member, h'.given s ((same s).mpr member)]
  · have absent : ∀ s ∈ settings, s.field ≠ f := fun s member here => there ⟨s, member, here⟩
    rw [h.rest f absent, h'.rest f fun s member => absent s ((same s).mp member)]

theorem get_foldl_set_of_absent {settings : List Setting} {f : Field} (absent : ∀ s ∈ settings, s.field ≠ f)
    (o : Options) : (settings.foldl set o).get f = o.get f := by
  induction settings generalizing o with
  | nil => rfl
  | cons s settings ih =>
      obtain ⟨first, later⟩ := List.forall_mem_cons.mp absent
      rw [List.foldl_cons, ih later, get_set, if_neg (Ne.symm first)]

theorem get_foldl_set_of_mem {settings : List Setting} (distinct : Distinct settings) {s : Setting}
    (member : s ∈ settings) (o : Options) : (settings.foldl set o).get s.field = s := by
  induction settings generalizing o with
  | nil => cases member
  | cons t settings ih =>
      obtain ⟨other, distinct⟩ := List.nodup_cons.mp distinct
      rw [List.foldl_cons]
      obtain rfl | later := List.mem_cons.mp member
      · rw [get_foldl_set_of_absent, get_set, if_pos rfl]
        intro u within same
        exact other (same ▸ List.mem_map_of_mem within)
      · exact ih distinct later (o.set t)

theorem foldl_set_sets {settings : List Setting} (distinct : Distinct settings) :
    (settings.foldl set default).Sets settings where
  given := fun _ member => get_foldl_set_of_mem distinct member default
  rest := fun _ absent => get_foldl_set_of_absent absent default

/-! Objects. -/

theorem Field.ofKey?_eq_none {key : String} (foreign : ∀ f : Field, f.key ≠ key) : ofKey? key = none := by
  rw [ofKey?, List.find?_eq_none]
  intro f _
  simpa using foreign f

/-- Members of no field are passed over. -/
theorem foldlM_takeMember_entries (entries : List Entry) (sofar : Options × List Field) :
    (entries.map Entry.member).foldlM takeMember sofar =
      ((given entries).map Setting.member).foldlM takeMember sofar := by
  induction entries generalizing sofar with
  | nil => rfl
  | cons e entries ih =>
      cases e with
      | known s =>
          show (takeMember sofar s.member).bind _ = (takeMember sofar s.member).bind _
          congr 1
          funext next
          exact ih next
      | unknown key value foreign =>
          have passed : takeMember sofar (some key, value) = some sofar := by
            rw [takeMember, Option.bind_some, Field.ofKey?_eq_none foreign]
          show (takeMember sofar (some key, value)).bind _ = _
          rw [passed]
          exact ih sofar

theorem ofJson?_object {entries : List Entry} (distinct : Distinct (given entries)) {text : String}
    (written : Json.Written text (.object (entries.map Entry.member))) :
    ofJson? text = some ((given entries).foldl set default) := by
  rw [ofJson?, Json.parse?_of_written written, Option.bind_some, ofValue?, ofMembers?, foldlM_takeMember_entries]
  exact ofMembers?_members distinct

theorem Field.key_injective : Function.Injective key := fun f g same => by
  have known := congrArg ofKey? same
  rw [ofKey?_key, ofKey?_key] at known
  exact Option.some.inj known

theorem Field.eq_key_of_ofKey? {key : String} {f : Field} (known : ofKey? key = some f) : f.key = key := by
  simpa using List.find?_some known

/-- What taking a member in comes to, if it is taken. -/
theorem takeMember_cases {sofar next : Options × List Field} {m : Json.Member}
    (taken : takeMember sofar m = some next) :
    (∃ key value foreign, m = (Entry.unknown key value foreign).member ∧ next = sofar) ∨
      ∃ s : Setting, m = s.member ∧ s.field ∉ sofar.2 ∧ next = (sofar.1.set s, s.field :: sofar.2) := by
  obtain ⟨name, value⟩ := m
  rw [takeMember] at taken
  obtain ⟨key, rfl, taken⟩ := Option.bind_eq_some_iff.mp taken
  cases known : Field.ofKey? key with
  | none =>
      rw [known] at taken
      cases taken
      refine .inl ⟨key, value, fun f same => ?_, rfl, rfl⟩
      rw [← same, Field.ofKey?_key] at known
      cases known
  | some f =>
      rw [known] at taken
      simp only at taken
      split at taken
      · cases taken
      · rename_i fresh
        obtain ⟨s, read, rfl⟩ := Option.map_eq_some_iff.mp taken
        obtain ⟨rfl, rfl⟩ := Setting.of_ofJson? read
        exact .inr ⟨s, by rw [Setting.member, Field.eq_key_of_ofKey? known], fresh, rfl⟩

/-- If all members are taken, they set different fields, and none that was given before. -/
theorem entries_of_taken {members : List Json.Member} {sofar final : Options × List Field}
    (taken : members.foldlM takeMember sofar = some final) :
    ∃ entries : List Entry, members = entries.map Entry.member ∧ Distinct (given entries) ∧
      (∀ s ∈ given entries, s.field ∉ sofar.2) ∧ final.1 = (given entries).foldl set sofar.1 := by
  induction members generalizing sofar with
  | nil =>
      cases taken
      exact ⟨[], rfl, List.nodup_nil, fun _ member => absurd member List.not_mem_nil, rfl⟩
  | cons m members ih =>
      rw [List.foldlM_cons] at taken
      obtain ⟨next, first, later⟩ := Option.bind_eq_some_iff.mp taken
      obtain ⟨entries, rfl, distinct, fresh, final⟩ := ih later
      obtain ⟨key, value, foreign, rfl, rfl⟩ | ⟨s, rfl, before, rfl⟩ := takeMember_cases first
      · exact ⟨.unknown key value foreign :: entries, rfl, distinct, fresh, final⟩
      · refine ⟨.known s :: entries, rfl, List.nodup_cons.mpr ⟨fun again => ?_, distinct⟩, fun t member => ?_, final⟩
        · obtain ⟨t, within, same⟩ := List.mem_map.mp again
          exact fresh t within (same ▸ List.mem_cons_self)
        · obtain rfl | within := List.mem_cons.mp member
          · exact before
          · exact fun known => fresh t within (List.mem_cons_of_mem _ known)

/-- A field's key is among the members as often as the field is set. -/
theorem count_key (entries : List Entry) (f : Field) :
    ((entries.map Entry.member).map Prod.fst).count (some f.key) = ((given entries).map Setting.field).count f := by
  induction entries with
  | nil => rfl
  | cons e entries ih =>
      cases e with
      | unknown key value foreign =>
          have other : some key ≠ some f.key := fun same => foreign f (Option.some.inj same).symm
          exact (List.count_cons_of_ne other).trans ih
      | known s =>
          have keys : (some s.field.key == some f.key) = (s.field == f) := by
            rw [Bool.eq_iff_iff, beq_iff_eq, beq_iff_eq, Option.some_inj, Field.key_injective.eq_iff]
          show List.count _ (some s.field.key :: _) = List.count f (s.field :: (given entries).map Setting.field)
          rw [List.count_cons, List.count_cons, keys, ih]

/-! Arrays. -/

/-- Items stand with the fields that they are for. -/
theorem zip_values {settings : List Setting} {fields : List Field} (first : settings.map Setting.field <+: fields) :
    fields.zip (settings.map Setting.value) = settings.map fun s => (s.field, s.value) := by
  induction settings generalizing fields with
  | nil => simp
  | cons s settings ih =>
      cases fields with
      | nil => simp at first
      | cons f fields =>
          obtain ⟨rfl, later⟩ := List.cons_prefix_cons.mp first
          rw [List.map_cons, List.zip_cons_cons, ih later, List.map_cons]

theorem foldlM_items (settings : List Setting) (o : Options) :
    (settings.map fun s => (s.field, s.value)).foldlM
      (fun (o : Options) (f, item) => (Setting.ofJson? f item).map o.set) o = some (settings.foldl set o) := by
  induction settings generalizing o with
  | nil => rfl
  | cons s settings ih =>
      rw [List.map_cons, List.foldlM_cons]
      simp only [Setting.ofJson?_value, Option.map_some]
      exact ih (o.set s)

theorem distinct_of_first {settings : List Setting} (first : settings.map Setting.field <+: Field.all) :
    Distinct settings :=
  (by decide : Field.all.Nodup).sublist first.sublist

theorem ofJson?_array {settings : List Setting} (first : settings.map Setting.field <+: Field.all) {text : String}
    (written : Json.Written text (.array (settings.map Setting.value))) :
    ofJson? text = some (settings.foldl set default) := by
  have few : (settings.map Setting.value).length ≤ Field.all.length := by
    simpa using first.length_le
  rw [ofJson?, Json.parse?_of_written written, Option.bind_some, ofValue?, ofItems?, if_pos few, zip_values first]
  exact foldlM_items settings default

/-- If every item is read, the items are values for the first of the fields. -/
theorem settings_of_taken {fields : List Field} {items : List Json} (few : items.length ≤ fields.length)
    {o final : Options}
    (taken : (fields.zip items).foldlM (fun (o : Options) (f, item) => (Setting.ofJson? f item).map o.set) o =
      some final) :
    ∃ settings : List Setting, items = settings.map Setting.value ∧ settings.map Setting.field <+: fields ∧
      final = settings.foldl set o := by
  induction items generalizing fields o with
  | nil =>
      rw [List.zip_nil_right] at taken
      cases taken
      exact ⟨[], rfl, List.nil_prefix, rfl⟩
  | cons item items ih =>
      cases fields with
      | nil => cases few
      | cons f fields =>
          rw [List.zip_cons_cons, List.foldlM_cons] at taken
          obtain ⟨next, read, later⟩ := Option.bind_eq_some_iff.mp taken
          obtain ⟨s, value, rfl⟩ := Option.map_eq_some_iff.mp read
          obtain ⟨rfl, rfl⟩ := Setting.of_ofJson? value
          obtain ⟨settings, rfl, first, rfl⟩ := ih (Nat.le_of_succ_le_succ few) later
          exact ⟨s :: settings, rfl, List.cons_prefix_cons.mpr ⟨rfl, first⟩, rfl⟩

/-! What is read has one of the two forms. -/

theorem forms_of_ofJson? {text : String} {o : Options} (read : ofJson? text = some o) :
    (∃ entries : List Entry, Json.Written text (.object (entries.map Entry.member)) ∧ Distinct (given entries) ∧
      o = (given entries).foldl set default) ∨
    ∃ settings : List Setting, Json.Written text (.array (settings.map Setting.value)) ∧
      settings.map Setting.field <+: Field.all ∧ o = settings.foldl set default := by
  obtain ⟨v, parsed, value⟩ := Option.bind_eq_some_iff.mp read
  have written := Json.parse?_eq_some_iff.mp parsed
  cases v with
  | object members =>
      obtain ⟨final, taken, rfl⟩ := Option.map_eq_some_iff.mp value
      obtain ⟨entries, rfl, distinct, _, same⟩ := entries_of_taken taken
      exact .inl ⟨entries, written, distinct, same⟩
  | array items =>
      rw [ofValue?, ofItems?] at value
      split at value
      · rename_i few
        obtain ⟨settings, rfl, first, same⟩ := settings_of_taken few value
        exact .inr ⟨settings, written, first, same⟩
      · cases value
  | _ => cases value

theorem ofJson?_twice {members : List Json.Member} {f : Field}
    (twice : 1 < (members.map Prod.fst).count (some f.key)) {text : String}
    (written : Json.Written text (.object members)) : ofJson? text = none := by
  rw [ofJson?, Json.parse?_of_written written, Option.bind_some, ofValue?, ofMembers?, Option.map_eq_none_iff]
  cases taken : members.foldlM takeMember (default, []) with
  | none => rfl
  | some final =>
      obtain ⟨entries, rfl, distinct, _⟩ := entries_of_taken taken
      have once := List.nodup_iff_count.mp distinct f
      rw [count_key] at twice
      omega

/-- A text of an object whose members set different fields, between any other members with other keys, is read as the
options that have these settings and all other defaults, and so is every text of the same members in another
order. An object that has the key of one field twice, with whatever values, is not read. A text of an array with values
for the first fields is read as the options that every object with the same settings is read as. No other text is
read: what is read is an object or an array of one of these forms. -/
theorem json_forms_agree :
    (∀ (entries : List Entry) text, Distinct (given entries) →
      Json.Written text (.object (entries.map Entry.member)) →
      ∃ o, ofJson? text = some o ∧ o.Sets (given entries) ∧ ∀ (entries' : List Entry) text', entries'.Perm entries →
        Json.Written text' (.object (entries'.map Entry.member)) → ofJson? text' = some o) ∧
    (∀ (members : List Json.Member) (f : Field) text, 1 < (members.map Prod.fst).count (some f.key) →
      Json.Written text (.object members) → ofJson? text = none) ∧
    (∀ (settings : List Setting) text, settings.map Setting.field <+: Field.all →
      Json.Written text (.array (settings.map Setting.value)) →
      ∃ o, ofJson? text = some o ∧ o.Sets settings ∧ ∀ (entries : List Entry) text', (given entries).Perm settings →
        Json.Written text' (.object (entries.map Entry.member)) → ofJson? text' = some o) ∧
    ∀ text o, ofJson? text = some o →
      (∃ entries : List Entry, Json.Written text (.object (entries.map Entry.member)) ∧ Distinct (given entries) ∧
        o.Sets (given entries)) ∨
      ∃ settings : List Setting, Json.Written text (.array (settings.map Setting.value)) ∧
        settings.map Setting.field <+: Field.all ∧ o.Sets settings := by
  -- two texts of the same settings
  have agree {settings : List Setting} (distinct : Distinct settings) (entries : List Entry) (text : String)
      (same : (given entries).Perm settings) (written : Json.Written text (.object (entries.map Entry.member))) :
      ofJson? text = some (settings.foldl set default) := by
    have distinct' : Distinct (given entries) := (same.map Setting.field).nodup_iff.mpr distinct
    rw [ofJson?_object distinct' written]
    exact congrArg some ((foldl_set_sets distinct).unique (foldl_set_sets distinct') fun s => same.mem_iff)
  refine ⟨?_, ?_, ?_, ?_⟩
  · intro entries text distinct written
    refine ⟨_, ofJson?_object distinct written, foldl_set_sets distinct, ?_⟩
    intro entries' text' same written'
    exact agree distinct entries' text' (same.filterMap Entry.setting?) written'
  · intro members f text twice written
    exact ofJson?_twice twice written
  · intro settings text first written
    have distinct := distinct_of_first first
    exact ⟨_, ofJson?_array first written, foldl_set_sets distinct, agree distinct⟩
  · intro text o read
    obtain ⟨entries, written, distinct, rfl⟩ | ⟨settings, written, first, rfl⟩ := forms_of_ofJson? read
    · exact .inl ⟨entries, written, distinct, foldl_set_sets distinct⟩
    · exact .inr ⟨settings, written, first, foldl_set_sets (distinct_of_first first)⟩

/-- A member of no field, in front of two fields, the later one first. -/
def looseEntries : List Entry :=
  [.unknown "else" (.array [.number none, .null]) (by intro f; cases f <;> decide), .known (.meshPeerValue 40),
    .known (.directPeerValue 7)]

def looseObject : String := "\x7b \"else\": [1e3, null],\n\"mesh_peer_value\" :40, \"direct_peer_value\":7 \x7d"

theorem json_forms_agree_loose :
    ∃ o, ofJson? looseObject = some o ∧ o.directPeerValue = 7 ∧ o.meshPeerValue = 40 ∧ o.deliveryCap = 15 ∧
      ofJson? "\x7b\"direct_peer_value\":7,\"mesh_peer_value\":40,\"else\":[1e3,null]\x7d" = some o ∧
      ofJson? "[7,40]" = some o ∧
      ofJson? "\x7b\"decay_amount\":2,\"decay_amount\":3\x7d" = none ∧
      ∃ entries : List Entry, Json.Written looseObject (.object (entries.map Entry.member)) ∧
        Distinct (given entries) ∧ o.Sets (given entries) := by
  obtain ⟨objects, twice, arrays, forms⟩ := json_forms_agree
  have loose : Json.Written looseObject (.object (looseEntries.map Entry.member)) := by
    apply Json.spaced_of_tokens?
    simp only [looseEntries, List.map_cons, List.map_nil, Entry.member, Setting.member, Setting.value, Json.tokens,
      List.intercalate_cons_cons, List.intercalate_singleton]
    decide +kernel
  have compact : Json.Written "\x7b\"direct_peer_value\":7,\"mesh_peer_value\":40,\"else\":[1e3,null]\x7d"
      (.object (looseEntries.reverse.map Entry.member)) := by
    apply Json.spaced_of_tokens?
    simp only [looseEntries, List.reverse_cons, List.reverse_nil, List.nil_append, List.cons_append, List.map_cons,
      List.map_nil, Entry.member, Setting.member, Setting.value, Json.tokens, List.intercalate_cons_cons,
      List.intercalate_singleton]
    decide +kernel
  have array : Json.Written "[7,40]" (.array ([Setting.directPeerValue 7, .meshPeerValue 40].map Setting.value)) := by
    apply Json.spaced_of_tokens?
    simp only [List.map_cons, List.map_nil, Setting.value, Json.tokens, List.intercalate_cons_cons,
      List.intercalate_singleton]
    decide +kernel
  have doubled : Json.Written "\x7b\"decay_amount\":2,\"decay_amount\":3\x7d"
      (.object [(some "decay_amount", .number (some 2)), (some "decay_amount", .number (some 3))]) := by
    apply Json.spaced_of_tokens?
    simp only [List.map_cons, List.map_nil, Json.tokens, List.intercalate_cons_cons, List.intercalate_singleton]
    decide +kernel
  have distinct : ((given looseEntries).map Setting.field).Nodup := by decide +kernel
  obtain ⟨o, read, sets, anyOrder⟩ := objects looseEntries looseObject distinct loose
  obtain ⟨o', read', -, anyObject⟩ := arrays [.directPeerValue 7, .meshPeerValue 40] "[7,40]" ⟨_, rfl⟩ array
  have same := anyObject looseEntries looseObject (.swap _ _ _) loose
  refine ⟨o, read, Setting.directPeerValue.inj (sets.given _ (.tail _ (.head _))),
    Setting.meshPeerValue.inj (sets.given _ (.head _)), ?_, anyOrder _ _ (List.reverse_perm _) compact, ?_,
    twice _ .decayAmount _ (by decide) doubled, (forms looseObject o read).resolve_right ?_⟩
  · exact Setting.deliveryCap.inj (sets.rest .deliveryCap (by decide +kernel))
  · rw [read', ← same, read]
  · rintro ⟨settings, written, _⟩
    cases (Json.parse?_of_written written).symm.trans (Json.parse?_of_written loose)

end PeerTags.Options

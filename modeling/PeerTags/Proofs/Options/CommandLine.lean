import PeerTags.Options.CommandLine
import PeerTags.Proofs.Options.Json
/-! Options are read back from a command line that gives them, in whatever order. Numbers that
are as by default may be left out, and the direct peers may be given in parts. -/
namespace PeerTags.Options

theorem Field.ofFlag?_flag (f : Field) : ofFlag? f.flag.toList = some f := by
  cases f <;> decide

theorem Field.flag_ne_help (f : Field) : f.flag.toList ≠ "help".toList := by
  cases f <;> decide

theorem Field.equals_notMem_flag (f : Field) : '=' ∉ f.flag.toList := by
  cases f <;> decide

namespace Setting

/-- The direct peers that a setting gives. -/
def peers? : Setting → Option (List String)
  | directPeers peers => peers
  | _ => none

/-- How a command line gives a value. -/
def text : Setting → List Char
  | directPeerValue value | meshPeerValue value | deliveryBump value | deliveryCap value | decayAmount value =>
    Text.Decimal.ofInt value.toInt
  | decayIntervalSecs secs => Text.Decimal.ofNat secs.toNat
  | directPeers peers => [','].intercalate ((peers.getD []).map String.toList)

/-- An option with its value after an equals sign. -/
def argument (s : Setting) : String := String.ofList ('-' :: '-' :: (s.field.flag.toList ++ '=' :: s.text))

/-- An argument gives at least one direct peer, and none with a comma in it. -/
def Sayable : Setting → Prop
  | directPeers peers => ∃ part, peers = some part ∧ part ≠ [] ∧ ∀ p ∈ part, ',' ∉ p.toList
  | _ => True

theorem sayable_of_number {s : Setting} (number : s.field ≠ .directPeers) : s.Sayable := by
  cases s with
  | directPeers peers => contradiction
  | _ => trivial

end Setting

/-- To set a number, and to add direct peers to those that are there. -/
def add (o : Options) : Setting → Options
  | .directPeers peers => o.set (.directPeers (some (o.directPeers.getD [] ++ peers.getD [])))
  | s => o.set s

theorem add_of_number {s : Setting} (number : s.field ≠ .directPeers) (o : Options) : o.add s = o.set s := by
  cases s with
  | directPeers peers => contradiction
  | _ => rfl

namespace CommandLine

/-! One argument. -/

theorem splitCommas_ne_nil (s : List Char) : splitCommas s ≠ [] := by
  cases s with
  | nil => exact List.cons_ne_nil _ _
  | cons c rest =>
      rw [splitCommas]
      split
      · exact List.cons_ne_nil _ _
      · split <;> exact List.cons_ne_nil _ _

theorem splitCommas_comma (rest : List Char) : splitCommas (',' :: rest) = [] :: splitCommas rest := by
  rw [splitCommas]
  split
  · rename_i empty
    exact absurd empty (splitCommas_ne_nil rest)
  · rename_i parts
    rw [if_pos rfl, parts]

theorem splitCommas_cons {c : Char} (plain : c ≠ ',') {rest part : List Char} {parts : List (List Char)}
    (later : splitCommas rest = part :: parts) : splitCommas (c :: rest) = (c :: part) :: parts := by
  rw [splitCommas, later]
  exact if_neg plain

theorem splitCommas_plain {part : List Char} (plain : ',' ∉ part) : splitCommas part = [part] := by
  induction part with
  | nil => rfl
  | cons c part ih =>
      obtain ⟨first, later⟩ := not_or.mp (mt List.mem_cons.mpr plain)
      exact splitCommas_cons (Ne.symm first) (ih later)

theorem splitCommas_append {part : List Char} (plain : ',' ∉ part) (rest : List Char) :
    splitCommas (part ++ ',' :: rest) = part :: splitCommas rest := by
  induction part with
  | nil => exact splitCommas_comma rest
  | cons c part ih =>
      obtain ⟨first, later⟩ := not_or.mp (mt List.mem_cons.mpr plain)
      exact splitCommas_cons (Ne.symm first) (ih later)

/-- Parts without commas are found again between the commas. -/
theorem splitCommas_intercalate {parts : List (List Char)} (nonempty : parts ≠ []) (plain : ∀ p ∈ parts, ',' ∉ p) :
    splitCommas ([','].intercalate parts) = parts := by
  induction parts with
  | nil => contradiction
  | cons part parts ih =>
      have first : ',' ∉ part := plain part List.mem_cons_self
      cases parts with
      | nil => rw [List.intercalate_singleton, splitCommas_plain first]
      | cons next parts =>
          have later := ih (List.cons_ne_nil _ _) fun p member => plain p (List.mem_cons_of_mem part member)
          rw [List.intercalate_cons_cons, List.append_assoc, List.singleton_append, splitCommas_append first, later]

theorem settingOfText?_text {s : Setting} (number : s.field ≠ .directPeers) :
    settingOfText? s.field s.text = some s := by
  have read := Setting.ofInt?_int? number
  cases s with
  | directPeers peers => contradiction
  | decayIntervalSecs secs =>
      show (Text.Decimal.toUnsigned? (Text.Decimal.ofNat secs.toNat)).bind _ = _
      rw [Text.Decimal.toUnsigned?_ofNat]
      exact read
  | _ value =>
      show (Text.Decimal.toSigned? (Text.Decimal.ofInt value.toInt)).bind _ = _
      rw [Text.Decimal.toSigned?_ofInt]
      exact read

theorem shape_long {name : List Char} (plain : '=' ∉ name) (value : List Char) :
    shape ('-' :: '-' :: (name ++ '=' :: value)) = .long name (some value) := by
  have before : ∀ c ∈ name, (decide (c ≠ '=')) = true := by
    intro c member
    exact decide_eq_true fun same => plain (same ▸ member)
  rw [shape]
  · rw [List.dropWhile_append_of_pos before, List.takeWhile_append_of_pos before]
    simp
  · simp

/-- The scan after an argument; only numbers are marked as given. -/
def Scan.add (scan : Scan) (s : Setting) : Scan :=
  { scan with
    options := scan.options.add s
    given := if s.field = .directPeers then scan.given else s.field :: scan.given }

theorem take_text {s : Setting} (sayable : s.Sayable) {scan : Scan} (fresh : s.field ∉ scan.given) :
    take scan s.field s.text = .ok (scan.add s) := by
  obtain number | ⟨peers, rfl⟩ := s.number_or_peers
  · rw [take, if_neg number, if_neg fresh, settingOfText?_text number, Scan.add, if_neg number, add_of_number number]
  · obtain ⟨part, rfl, nonempty, plain⟩ := sayable
    have split : splitCommas ([','].intercalate (part.map String.toList)) = part.map String.toList := by
      apply splitCommas_intercalate (by simpa using nonempty)
      simpa using plain
    simp [take, Scan.add, Setting.text, Options.add, split, Function.comp_def]

theorem step_argument {s : Setting} (sayable : s.Sayable) {scan : Scan} (fresh : s.field ∉ scan.given)
    (idle : scan.pending = .none) (ongoing : scan.optionsEnded = false) :
    step scan s.argument = .ok (scan.add s) := by
  have form : shape s.argument.toList = .long s.field.flag.toList (some s.text) := by
    rw [Setting.argument, String.toList_ofList, shape_long s.field.equals_notMem_flag]
  have settled : settle scan = .ok scan := by rw [settle, idle]
  rw [step, ongoing, form]
  show longOption scan s.field.flag.toList (some s.text) = _
  rw [longOption, if_neg s.field.flag_ne_help, Field.ofFlag?_flag]
  show (settle scan).bind (fun scan => take scan s.field s.text) = _
  rw [settled]
  exact take_text sayable fresh

/-! Many arguments. -/

/-- Only the direct peers are given more than once. -/
def Once (settings : List Setting) : Prop :=
  settings.Pairwise fun s t => s.field = t.field → s.field = .directPeers

theorem foldlM_step_arguments {settings : List Setting} (sayable : ∀ s ∈ settings, s.Sayable) (once : Once settings)
    {scan : Scan} (fresh : ∀ s ∈ settings, s.field ∉ scan.given) (idle : scan.pending = .none)
    (ongoing : scan.optionsEnded = false) :
    (settings.map Setting.argument).foldlM step scan = .ok (settings.foldl Scan.add scan) := by
  induction settings generalizing scan with
  | nil => rfl
  | cons s settings ih =>
      obtain ⟨first, later⟩ := List.pairwise_cons.mp once
      have begun : step scan s.argument = .ok (scan.add s) :=
        step_argument (sayable s List.mem_cons_self) (fresh s List.mem_cons_self) idle ongoing
      have fresher : ∀ t ∈ settings, t.field ∉ (scan.add s).given := by
        intro t member
        have before : t.field ∉ scan.given := fresh t (List.mem_cons_of_mem s member)
        rw [Scan.add]
        split
        · exact before
        · rename_i number
          intro again
          obtain same | earlier := List.mem_cons.mp again
          · exact number (first t member same.symm)
          · exact before earlier
      rw [List.map_cons, List.foldlM_cons, begun]
      exact ih (fun t member => sayable t (List.mem_cons_of_mem s member)) later fresher idle ongoing

theorem foldl_scan_add (settings : List Setting) (scan : Scan) :
    (settings.foldl Scan.add scan).options = settings.foldl Options.add scan.options ∧
      (settings.foldl Scan.add scan).pending = scan.pending := by
  induction settings generalizing scan with
  | nil => exact ⟨rfl, rfl⟩
  | cons s settings ih => exact ih (scan.add s)

theorem parse_arguments {settings : List Setting} (sayable : ∀ s ∈ settings, s.Sayable) (once : Once settings) :
    parse (settings.map Setting.argument) = .ok (settings.foldl Options.add default) := by
  obtain ⟨options, pending⟩ := foldl_scan_add settings Scan.start
  have scanned : (settings.map Setting.argument).foldlM step Scan.start = .ok (settings.foldl Scan.add Scan.start) :=
    foldlM_step_arguments sayable once (fun s _ => List.not_mem_nil) rfl rfl
  have settled : settle (settings.foldl Scan.add Scan.start) = .ok (settings.foldl Scan.add Scan.start) := by
    rw [settle, pending]
    rfl
  rw [parse, scanned]
  show (settle _).map Scan.options = _
  rw [settled]
  exact congrArg Except.ok options

end CommandLine

/-! What the arguments say together. -/

theorem get_add (o : Options) (s : Setting) {f : Field} (number : f ≠ .directPeers) :
    (o.add s).get f = if f = s.field then s else o.get f := by
  cases s with
  | directPeers peers =>
      rw [add, get_set, Setting.field_directPeers, Setting.field_directPeers, if_neg number, if_neg number]
  | _ value => exact get_set o _ f

/-- A number is what all the arguments for it say, and what it was if there are none. -/
theorem get_foldl_add {settings : List Setting} {s : Setting} (number : s.field ≠ .directPeers)
    (agree : ∀ t ∈ settings, t.field = s.field → t = s) {o : Options} (known : s ∈ settings ∨ o.get s.field = s) :
    (settings.foldl add o).get s.field = s := by
  induction settings generalizing o with
  | nil => exact known.resolve_left List.not_mem_nil
  | cons t settings ih =>
      apply ih fun u member => agree u (List.mem_cons_of_mem t member)
      rw [get_add o t number]
      split
      · rename_i same
        exact .inr (agree t List.mem_cons_self same.symm)
      · rename_i other
        obtain here | there := known.imp_left List.mem_cons.mp
        · obtain rfl | later := here
          · exact absurd rfl other
          · exact .inl later
        · exact .inr there

theorem directPeers_add (o : Options) {s : Setting} (sayable : s.Sayable) :
    (o.add s).directPeers = (s.peers?.map (o.directPeers.getD [] ++ ·)).or o.directPeers := by
  cases s with
  | directPeers peers =>
      obtain ⟨part, rfl, _, _⟩ := sayable
      rfl
  | _ value => rfl

/-- The direct peers are all the parts in a row, behind those that were there. -/
theorem directPeers_foldl_add {settings : List Setting} (sayable : ∀ s ∈ settings, s.Sayable) (o : Options) :
    (settings.foldl add o).directPeers =
      if settings.filterMap Setting.peers? = [] then o.directPeers
      else some (o.directPeers.getD [] ++ (settings.filterMap Setting.peers?).flatten) := by
  induction settings generalizing o with
  | nil => rfl
  | cons s settings ih =>
      have added := directPeers_add o (sayable s List.mem_cons_self)
      rw [List.foldl_cons, ih fun t member => sayable t (List.mem_cons_of_mem s member), added]
      cases given : s.peers? with
      | none => rw [List.filterMap_cons_none given]; rfl
      | some part =>
          rw [List.filterMap_cons_some given]
          split <;> simp_all

/-! Command lines for given options. -/

/-- A command line can give these direct peers: at least one, none with a comma, or no list at all. -/
def Expressible (o : Options) : Prop :=
  ∀ peers, o.directPeers = some peers → peers ≠ [] ∧ ∀ p ∈ peers, ',' ∉ p.toList

/-- What a command line for some options gives, argument by argument. -/
structure Arrangement (o : Options) where
  /-- Number fields that are left out. -/
  left : List Field
  /-- The direct peers, in the parts that an argument gives. -/
  parts : List (List String)
  settings : List Setting
  left_default : ∀ f ∈ left, o.get f = default.get f
  parts_nonempty : ∀ part ∈ parts, part ≠ []
  parts_flatten : parts.flatten = o.directPeers.getD []
  /-- The arguments come in any order. -/
  settings_perm : settings.Perm
    ((Field.numbers.filter (· ∉ left)).map o.get ++ parts.map fun part => .directPeers (some part))
  /-- The parts keep theirs. -/
  settings_parts : settings.filterMap Setting.peers? = parts

namespace Arrangement

variable {o : Options}

def arguments (a : Arrangement o) : List String := a.settings.map Setting.argument

theorem mem_settings (a : Arrangement o) {s : Setting} :
    s ∈ a.settings ↔
      (s.field ≠ .directPeers ∧ s.field ∉ a.left ∧ s = o.get s.field) ∨
        ∃ part ∈ a.parts, s = .directPeers (some part) := by
  rw [a.settings_perm.mem_iff, List.mem_append, List.mem_map, List.mem_map]
  apply or_congr
  · constructor
    · rintro ⟨f, kept, rfl⟩
      have kept := List.mem_filter.mp kept
      rw [field_get]
      exact ⟨Field.mem_numbers.mp kept.1, of_decide_eq_true kept.2, rfl⟩
    · rintro ⟨number, kept, same⟩
      exact ⟨s.field, List.mem_filter.mpr ⟨Field.mem_numbers.mpr number, decide_eq_true kept⟩, same.symm⟩
  · simp only [eq_comm]

theorem sayable (expressible : Expressible o) (a : Arrangement o) : ∀ s ∈ a.settings, s.Sayable := by
  intro s member
  obtain ⟨number, _⟩ | ⟨part, within, rfl⟩ := a.mem_settings.mp member
  · exact Setting.sayable_of_number number
  · refine ⟨part, rfl, a.parts_nonempty part within, ?_⟩
    intro p inside
    have listed : p ∈ o.directPeers.getD [] := a.parts_flatten ▸ List.mem_flatten_of_mem within inside
    cases given : o.directPeers with
    | none => simp [given] at listed
    | some peers =>
        rw [given] at listed
        exact (expressible peers given).2 p listed

theorem once (a : Arrangement o) : CommandLine.Once a.settings := by
  have distinct : (Field.numbers.filter (· ∉ a.left)).Nodup :=
    (by decide : Field.numbers.Nodup).filter _
  have either : ∀ {s t : Setting}, (s.field = t.field → s.field = .directPeers) → t.field = s.field →
      t.field = .directPeers := fun h same => same.trans (h same.symm)
  rw [CommandLine.Once, a.settings_perm.pairwise_iff either, List.pairwise_append, List.pairwise_map, List.pairwise_map]
  refine ⟨?_, ?_, ?_⟩
  · apply distinct.imp
    intro f g differ same
    rw [field_get, field_get] at same
    exact absurd same differ
  · exact List.pairwise_of_forall fun _ _ _ => rfl
  · intro s _ t peers same
    obtain ⟨part, _, rfl⟩ := List.mem_map.mp peers
    exact same

theorem get_foldl_settings (a : Arrangement o) {f : Field} (number : f ≠ .directPeers) :
    (a.settings.foldl add default).get f = o.get f := by
  have agree : ∀ t ∈ a.settings, t.field = (o.get f).field → t = o.get f := by
    intro t member same
    rw [field_get] at same
    obtain ⟨_, _, value⟩ | ⟨part, _, rfl⟩ := a.mem_settings.mp member
    · exact same ▸ value
    · exact absurd same.symm number
  have known : o.get f ∈ a.settings ∨ default.get (o.get f).field = o.get f := by
    rw [field_get]
    by_cases left : f ∈ a.left
    · exact .inr (a.left_default f left).symm
    · refine .inl (a.mem_settings.mpr (.inl ?_))
      rw [field_get]
      exact ⟨number, left, rfl⟩
  have said := get_foldl_add (by rwa [field_get]) agree known
  rwa [field_get] at said

theorem directPeers_foldl_settings (expressible : Expressible o) (a : Arrangement o) :
    (a.settings.foldl add default).directPeers = o.directPeers := by
  rw [directPeers_foldl_add (a.sayable expressible), a.settings_parts, a.parts_flatten]
  cases given : o.directPeers with
  | none =>
      have empty : a.parts = [] := by
        apply List.eq_nil_iff_forall_not_mem.mpr
        intro part member
        have nothing := List.flatten_eq_nil_iff.mp (a.parts_flatten.trans (congrArg (Option.getD · []) given))
        exact a.parts_nonempty part member (nothing part member)
      rw [if_pos empty]
      rfl
  | some peers =>
      have some_part : a.parts ≠ [] := by
        intro empty
        have nothing : [] = peers := by simpa [empty, given] using a.parts_flatten
        exact (expressible peers given).1 nothing.symm
      rw [if_neg some_part]
      rfl

theorem foldl_settings (expressible : Expressible o) (a : Arrangement o) : a.settings.foldl add default = o := by
  apply ext_get
  intro f
  by_cases number : f ≠ .directPeers
  · exact a.get_foldl_settings number
  · rw [Decidable.not_not.mp number]
    exact congrArg Setting.directPeers (a.directPeers_foldl_settings expressible)

/-- Every field in an argument of its own, in the order of the fields. -/
def complete (expressible : Expressible o) : Arrangement o where
  left := []
  parts := o.directPeers.toList
  settings := o.settings
  left_default := fun _ member => absurd member List.not_mem_nil
  parts_nonempty := fun part member => (expressible part (Option.mem_toList.mp member)).1
  parts_flatten := by cases o.directPeers <;> simp
  settings_perm := by rw [settings_eq]; exact .refl _
  settings_parts := by
    rw [settings_eq, List.filterMap_append]
    cases o.directPeers <;> rfl

end Arrangement

/-- Options are read back from each command line that gives them, as they are from the text that
they are printed as. So both ways give the same configuration and the same peers. -/
theorem command_line_round_trip {o : Options} (expressible : Expressible o) :
    Nonempty (Arrangement o) ∧
      ∀ a : Arrangement o, ∃ fromLine fromText,
        CommandLine.parse a.arguments = .ok fromLine ∧ ofJson? o.toJson = some fromText ∧ fromLine = o ∧
          fromLine.config = fromText.config ∧ fromLine.peers = fromText.peers := by
  refine ⟨⟨.complete expressible⟩, ?_⟩
  intro a
  refine ⟨o, o, ?_, ofJson?_toJson o, rfl, rfl, rfl⟩
  rw [Arrangement.arguments, CommandLine.parse_arguments (a.sayable expressible) a.once, a.foldl_settings expressible]

/-- A negative number, and direct peers of which one is empty. -/
def mixedOptions : Options :=
  { default with
    deliveryCap := ⟨-7, by decide, by decide⟩
    decayIntervalSecs := 5
    directPeers := some ["a", "", " b"] }

theorem expressible_mixedOptions : Expressible mixedOptions := by
  intro peers given
  cases given
  decide

def mixedArrangement : Arrangement mixedOptions where
  left := [.decayAmount, .directPeerValue, .deliveryBump]
  parts := [["a"], ["", " b"]]
  settings := [.directPeers (some ["a"]), .deliveryCap ⟨-7, by decide, by decide⟩, .directPeers (some ["", " b"]),
    .decayIntervalSecs 5, .meshPeerValue 20]
  left_default := by decide
  parts_nonempty := by decide
  parts_flatten := rfl
  settings_perm := by decide
  settings_parts := rfl

theorem command_line_round_trip_mixed :
    Expressible mixedOptions ∧
      mixedArrangement.arguments = ["--pubsub.direct-peers=a", "--pubsub.tag.delivery-cap=-7",
        "--pubsub.direct-peers=, b", "--pubsub.tag.decay-interval=5", "--pubsub.tag.mesh-value=20"] ∧
      ∃ fromLine fromText, CommandLine.parse mixedArrangement.arguments = .ok fromLine ∧
        ofJson? mixedOptions.toJson = some fromText ∧ fromLine = mixedOptions ∧
          fromLine.config = fromText.config ∧ fromLine.peers = fromText.peers :=
  ⟨expressible_mixedOptions, by decide, (command_line_round_trip expressible_mixedOptions).2 mixedArrangement⟩

end PeerTags.Options

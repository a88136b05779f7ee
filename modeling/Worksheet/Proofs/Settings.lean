import Worksheet.Proofs.Document.Contents
import Worksheet.Proofs.Number.Display
import Worksheet.Proofs.Toml.Section
import Worksheet.Settings

/-!
Settings: what is accepted, and what has been written down is read back.

Settings that come out of a text or a file have passed their check (`accepted_of_load`,
`accepted_of_loadDefault`), and so have the defaults. With such settings a document can show every
cell (`Document.exists_display_run`): the places that a number may have to be shown with are few
enough to be written.

A document with the two sections, in either order, with blanks and comments wherever they may be, is
read as the settings that it spells. A section or a setting that is missing leaves the default
(`ofToml_rows`).
-/

namespace Worksheet

namespace Settings

/-- The check that settings have to pass. -/
def Accepted (settings : Settings) : Prop :=
  settings.decimals ≤ maxDecimals

theorem accepted_default : Accepted {} :=
  show 2 ≤ maxDecimals by decide

/-! ## Texts -/

variable {s : String} {settings : Settings} {file : File}

theorem ofToml_eq_ok_iff :
    ofToml s = .ok settings ↔
      (Toml.parse? s).bind ofEntries? = some settings ∧ settings.Accepted := by
  unfold ofToml Accepted
  cases (Toml.parse? s).bind ofEntries? with
  | none => simp
  | some read =>
    dsimp only
    split
    · next hmany =>
      simp only [reduceCtorEq, Option.some.injEq, false_iff]
      rintro ⟨rfl, hfew⟩
      omega
    · next hfew =>
      simp only [Except.ok.injEq, Option.some.injEq, iff_self_and]
      rintro rfl
      omega

/-- A text is refused because it does not hold settings, or for the places that it asks for. -/
theorem ofToml_eq_error_iff {e : SettingsError} :
    ofToml s = .error e ↔
      ((Toml.parse? s).bind ofEntries? = none ∧ e = .malformed) ∨
      ∃ settings, (Toml.parse? s).bind ofEntries? = some settings ∧ ¬ settings.Accepted ∧
        e = .tooManyDecimals settings.decimals := by
  unfold ofToml Accepted
  cases (Toml.parse? s).bind ofEntries? with
  | none => simp [eq_comm]
  | some read =>
    dsimp only
    split
    · next hmany => simp [hmany, eq_comm]
    · next hfew => simp [hfew]

theorem accepted_of_ofToml (h : ofToml s = .ok settings) : settings.Accepted :=
  (ofToml_eq_ok_iff.1 h).2

/-! ## Files -/

/-- Bytes are read as the text that they are the encoding of. -/
theorem fromUTF8?_eq_some_iff {content : ByteArray} :
    String.fromUTF8? content = some s ↔ content = s.toUTF8 := by
  unfold String.fromUTF8?
  constructor
  · intro h
    split at h
    · cases h
      rfl
    · cases h
  · rintro rfl
    exact dif_pos s.isValidUTF8

theorem load_toUTF8 (h : s.toUTF8.size ≤ maxFileBytes) : load (.bytes s.toUTF8) = ofToml s := by
  rw [load, if_neg (Nat.not_lt_of_le h), fromUTF8?_eq_some_iff.2 rfl]

/-- A file holds settings if it is not too large and consists of a text that holds them. -/
theorem load_eq_ok_iff :
    load file = .ok settings ↔
      ∃ s : String, file = .bytes s.toUTF8 ∧ s.toUTF8.size ≤ maxFileBytes ∧
        ofToml s = .ok settings := by
  constructor
  · intro h
    cases file with
    | missing => cases h
    | directory => cases h
    | bytes content =>
      rw [load] at h
      split at h
      · cases h
      · next hsize =>
        split at h
        · next s hs =>
          obtain rfl := fromUTF8?_eq_some_iff.1 hs
          exact ⟨s, rfl, Nat.le_of_not_lt hsize, h⟩
        · cases h
  · rintro ⟨s, rfl, hsize, hread⟩
    rw [load_toUTF8 hsize, hread]

theorem accepted_of_load (h : load file = .ok settings) : settings.Accepted := by
  obtain ⟨_, _, _, hread⟩ := load_eq_ok_iff.1 h
  exact accepted_of_ofToml hread

/-- The user's own file need not be there: without it the defaults hold, and they are accepted. -/
theorem accepted_of_loadDefault (h : loadDefault file = .ok settings) : settings.Accepted := by
  cases file with
  | missing => cases h; exact accepted_default
  | directory => cases h; exact accepted_default
  | bytes content => exact accepted_of_load (show load (.bytes content) = .ok settings from h)

/-! ## Sections and what they say -/

/-- The settings in the table of a document: there are no other sections, and each setting can be
read or is missing. -/
theorem ofEntries?_eq_some_iff {entries : Toml.Entries} :
    ofEntries? entries = some settings ↔
      (∀ e ∈ entries, e.1 = "names" ∨ e.1 = "display") ∧
      setting? entries "names" "normalize" casing? .upper = some settings.casing ∧
      setting? entries "display" "decimals" decimals? 2 = some settings.decimals := by
  have hnames : (entries.all fun e => e.1 == "names" || e.1 == "display") = true ↔
      ∀ e ∈ entries, e.1 = "names" ∨ e.1 = "display" := by
    simp [List.all_eq_true]
  obtain ⟨casing, decimals⟩ := settings
  unfold ofEntries?
  rw [← hnames]
  cases entries.all fun e => e.1 == "names" || e.1 == "display" with
  | false => simp
  | true =>
    cases setting? entries "names" "normalize" casing? .upper with
    | none => simp
    | some c => cases setting? entries "display" "decimals" decimals? 2 <;> simp

/-- With distinct keys, the order of the entries does not matter. -/
theorem setting?_perm {α : Type} {entries entries' : Toml.Entries} (h : entries.Perm entries')
    (hkeys : (entries.map Prod.fst).Nodup) (group key : String) (read : Toml.Item → Option α)
    (default : α) :
    setting? entries group key read default = setting? entries' group key read default := by
  have hlookup : entries.lookup group = entries'.lookup group := by
    refine Option.ext fun item => ?_
    rw [Toml.Entries.lookup_eq_some_iff_mem hkeys,
      Toml.Entries.lookup_eq_some_iff_mem ((h.map Prod.fst).nodup_iff.1 hkeys), h.mem_iff]
  rw [setting?, setting?, hlookup]

theorem ofEntries?_perm {entries entries' : Toml.Entries} (h : entries.Perm entries')
    (hkeys : (entries.map Prod.fst).Nodup) : ofEntries? entries = ofEntries? entries' := by
  refine Option.ext fun settings => ?_
  rw [ofEntries?_eq_some_iff, ofEntries?_eq_some_iff, setting?_perm h hkeys, setting?_perm h hkeys]
  simp only [h.mem_iff]

/-! ## Settings that have been written down -/

/-- The word for a case. -/
def word : Casing → String
  | .upper => "upper"
  | .lower => "lower"
  | .preserve => "preserve"

/-- The section on names; its setting may be left out. -/
def namesSection (casing : Option Casing) : Toml.Section :=
  { name := "names", entries := casing.toList.map fun c => ("normalize", .text (word c)) }

/-- The section on what is shown; its setting may be left out. -/
def displaySection (decimals : Option Nat) : Toml.Section :=
  { name := "display", entries := decimals.toList.map fun n => ("decimals", .natural n) }

/-- The sections of settings; each of them may be left out as well. -/
def sections (names : Option (Option Casing)) (display : Option (Option Nat)) :
    List Toml.Section :=
  (names.map namesSection).toList ++ (display.map displaySection).toList

/-- The settings that are chosen; what has been left out takes its default. -/
def chosen (names : Option (Option Casing)) (display : Option (Option Nat)) : Settings :=
  { casing := names.join.getD .upper, decimals := display.join.getD 2 }

theorem casingOfName?_word (c : Casing) : casingOfName? (word c) = some c := by
  cases c <;> rfl

theorem decimals?_natural {n : Nat} (hn : FitsInt64 n) :
    decimals? (Toml.Scalar.natural n).item = some n := by
  have hvalue : (Int64.ofInt n).toInt = n := Int64.toInt_ofInt_of_le hn.1 hn.2
  have hsign : 0 ≤ Int64.ofInt n := by
    rw [Int64.le_iff_toInt_le, hvalue]
    exact Int.natCast_nonneg n
  rw [Toml.Scalar.item, decimals?, if_pos hsign, hvalue]
  rfl

theorem ofEntries?_sections (names : Option (Option Casing)) (display : Option (Option Nat))
    (hdecimals : ∀ n ∈ display.join, FitsInt64 n) :
    ofEntries? ((sections names display).map Toml.Section.table) = some (chosen names display) := by
  refine ofEntries?_eq_some_iff.2 ⟨?_, ?_, ?_⟩
  · cases names <;> cases display <;>
      simp [sections, namesSection, displaySection, Toml.Section.table]
  · rcases names with _ | _ | c
    · cases display <;> rfl
    · cases display <;> rfl
    · cases display <;> exact casingOfName?_word c
  · rcases display with _ | _ | n
    · cases names <;> rfl
    · cases names <;> rfl
    · cases names <;> exact decimals?_natural (hdecimals n rfl)

theorem nodup_sections (names : Option (Option Casing)) (display : Option (Option Nat)) :
    ((sections names display).map Toml.Section.name).Nodup := by
  cases names <;> cases display <;> simp [sections, namesSection, displaySection]

theorem wellFormed_sections (names : Option (Option Casing)) (display : Option (Option Nat)) :
    ∀ t ∈ sections names display, t.WellFormed := by
  have hnames : ∀ casing, (namesSection casing).WellFormed := by
    intro casing
    cases casing <;> simp [namesSection, Toml.Section.WellFormed]
  have hdisplay : ∀ decimals, (displaySection decimals).WellFormed := by
    intro decimals
    cases decimals <;> simp [displaySection, Toml.Section.WellFormed]
  intro t ht
  rw [sections, List.mem_append, Option.mem_toList, Option.mem_toList, Option.map_eq_some_iff,
    Option.map_eq_some_iff] at ht
  rcases ht with ⟨casing, -, rfl⟩ | ⟨decimals, -, rfl⟩
  · exact hnames casing
  · exact hdisplay decimals

/-- A number of places that stands on a row is a 64-bit integer. -/
theorem fitsInt64_of_rows {rows : List Toml.Row} (hrows : ∀ r ∈ rows, r.WellFormed)
    {names : Option (Option Casing)} {display : Option (Option Nat)} {written : List Toml.Section}
    (hperm : written.Perm (sections names display))
    (hclauses : rows.filterMap Toml.Row.clause = written.flatMap Toml.Section.clauses) :
    ∀ n ∈ display.join, FitsInt64 n := by
  intro n hn
  obtain rfl : display = some (some n) := Option.join_eq_some_iff.1 hn
  have hsection : displaySection (some n) ∈ written :=
    hperm.mem_iff.2 (List.mem_append_right _ (Option.mem_toList.2 rfl))
  have hclause : Toml.Clause.entry "decimals" (.natural n) ∈ rows.filterMap Toml.Row.clause := by
    rw [hclauses]
    exact List.mem_flatMap.2 ⟨_, hsection, List.mem_cons_of_mem _ List.mem_cons_self⟩
  obtain ⟨r, hr, hentry⟩ := List.mem_filterMap.1 hclause
  exact ((hrows r hr).clause _ hentry).2

/-- A document with the sections in some order is read as the settings that are written in it. If
these ask for too many places, it is refused with their number. -/
theorem ofToml_rows {rows : List Toml.Row} (hrows : ∀ r ∈ rows, r.WellFormed)
    {names : Option (Option Casing)} {display : Option (Option Nat)} {written : List Toml.Section}
    (hperm : written.Perm (sections names display))
    (hclauses : rows.filterMap Toml.Row.clause = written.flatMap Toml.Section.clauses) :
    ((chosen names display).Accepted →
      ofToml (String.ofList (rows.flatMap Toml.Row.spell)) = .ok (chosen names display)) ∧
    (¬ (chosen names display).Accepted →
      ofToml (String.ofList (rows.flatMap Toml.Row.spell)) =
        .error (.tooManyDecimals (chosen names display).decimals)) := by
  have hnodup : (written.map Toml.Section.name).Nodup :=
    (hperm.map _).nodup_iff.2 (nodup_sections names display)
  have hparse := Toml.parse?_sections hrows hclauses
    (fun t ht => wellFormed_sections names display t (hperm.mem_iff.1 ht)) hnodup
  have hkeys : ((written.map Toml.Section.table).map Prod.fst).Nodup := by
    rw [List.map_map]
    exact hnodup
  have hread : (Toml.parse? (String.ofList (rows.flatMap Toml.Row.spell))).bind ofEntries? =
      some (chosen names display) := by
    rw [hparse, Option.bind_some, ofEntries?_perm (hperm.map _) hkeys,
      ofEntries?_sections names display (fitsInt64_of_rows hrows hperm hclauses)]
  exact ⟨fun h => ofToml_eq_ok_iff.2 ⟨hread, h⟩,
    fun h => ofToml_eq_error_iff.2 (.inr ⟨_, hread, h, rfl⟩)⟩

end Settings

/-! ## What is shown with accepted settings -/

theorem Settings.Accepted.le_maxPlaces {settings : Settings} (h : settings.Accepted) :
    settings.decimals ≤ Binary64.maxPlaces :=
  h.trans (by decide)

theorem Value.exists_display {decimals : Nat} (h : decimals ≤ Binary64.maxPlaces) (v : Value) :
    ∃ s, v.display decimals = some s := by
  cases v with
  | number x => exact Binary64.exists_display x h
  | empty => exact ⟨_, rfl⟩
  | integer k => exact ⟨_, rfl⟩
  | text s => exact ⟨_, rfl⟩
  | error e => exact ⟨_, rfl⟩

/-- With settings that have passed their check, every cell of a document shows a text, whatever has
been done to the document. -/
theorem Document.exists_display_run {settings : Settings} (h : settings.Accepted)
    (actions : List Action) {name : String} (hname : Name.isValid name) :
    ∃ s, (run settings actions).display name = .ok (some s) := by
  obtain ⟨s, hs⟩ := Value.exists_display h.le_maxPlaces
    ((run settings actions).valueAt ((run settings actions).sheet.casing.apply name))
  refine ⟨s, ?_⟩
  rw [display, value_of_isValid _ hname, settings_run, ← hs]
  rfl

end Worksheet

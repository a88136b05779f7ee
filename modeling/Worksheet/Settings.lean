import Worksheet.Name
import Worksheet.Toml.Document

/-!
What a user can choose: the case in which names are kept, and the places that numbers are shown
with. The settings are kept in a TOML document with the two sections `names` and `display`; what
is missing there takes its default.
-/

namespace Worksheet

structure Settings where
  casing : Casing := .upper
  decimals : Nat := 2
  deriving DecidableEq, Repr

/-- Why settings cannot be had from a text or a file. -/
inductive SettingsError where
  | notFound
  | isDirectory
  | tooLarge
  | notText
  | malformed
  | tooManyDecimals (decimals : Nat)
  deriving DecidableEq, Repr

namespace Settings

/-- No number is shown with more places than this. -/
def maxDecimals : Nat := 15

/-- No file of settings is larger than this. -/
def maxFileBytes : Nat := 1048576

end Settings

def SettingsError.message : SettingsError → String
  | notFound => "No such file"
  | isDirectory => "The file is a directory"
  | tooLarge => "The file is larger than " ++ toString Settings.maxFileBytes ++ " bytes"
  | notText => "The file is not text in UTF-8"
  | malformed => "The text does not hold settings"
  | tooManyDecimals n =>
    "Invalid setting: display.decimals must be at most " ++ toString Settings.maxDecimals ++
      ", got " ++ toString n

namespace Settings

open Toml (Item Entries)

/-- The one field that a section may have, under its key or as the first item of an array. The
outer `none` refuses the section, the inner one leaves the field at its default. -/
def field? (key : String) : Item → Option (Option Item)
  | .inline entries | .table _ _ entries =>
    if entries.all fun e => e.1 == key then some (entries.lookup key) else none
  | .array items => some items.head?
  | .tables elements => some (elements.head?.map (.table false false))
  | _ => none

def casingOfName? : String → Option Casing
  | "upper" => some .upper
  | "lower" => some .lower
  | "preserve" => some .preserve
  | _ => none

/-- Is there nothing in the array or table? -/
def isHollow : Item → Bool
  | .array items => items.isEmpty
  | .inline entries | .table _ _ entries => entries.isEmpty
  | .tables elements => elements.isEmpty
  | _ => false

/-- A case by its name, which may also be the only key of a table, with nothing under it. -/
def casing? : Item → Option Casing
  | .text s => casingOfName? s
  | .inline [(name, item)] | .table _ _ [(name, item)] =>
    if isHollow item then casingOfName? name else none
  | _ => none

def decimals? : Item → Option Nat
  | .integer k => if 0 ≤ k then some k.toInt.toNat else none
  | _ => none

/-- A setting in the section `group`; without the section or the setting, its default. -/
def setting? {α : Type} (entries : Entries) (group key : String) (read : Item → Option α)
    (default : α) : Option α :=
  match entries.lookup group with
  | none => some default
  | some item =>
    match field? key item with
    | none => none
    | some none => some default
    | some (some i) => read i

/-- The settings in a table that has no other sections. -/
def ofEntries? (entries : Entries) : Option Settings := do
  if !entries.all fun e => e.1 == "names" || e.1 == "display" then
    none
  let casing ← setting? entries "names" "normalize" casing? .upper
  let decimals ← setting? entries "display" "decimals" decimals? 2
  return { casing, decimals }

/-- The settings that a text holds. -/
def ofToml (s : String) : Except SettingsError Settings :=
  match (Toml.parse? s).bind ofEntries? with
  | none => .error .malformed
  | some settings =>
    if maxDecimals < settings.decimals then .error (.tooManyDecimals settings.decimals)
    else .ok settings

/-- What is found where a file of settings is looked for. -/
inductive File where
  | missing
  | directory
  | bytes (content : ByteArray)

/-- The settings in a file that the user has named. -/
def load : File → Except SettingsError Settings
  | .missing => .error .notFound
  | .directory => .error .isDirectory
  | .bytes content =>
    if maxFileBytes < content.size then .error .tooLarge
    else
      match String.fromUTF8? content with
      | some s => ofToml s
      | none => .error .notText

/-- The settings in the user's own file, if there is one, else the defaults. -/
def loadDefault : File → Except SettingsError Settings
  | .bytes content => load (.bytes content)
  | .missing | .directory => .ok {}

end Settings

end Worksheet

import BasicComputer.Text.Blank
import BasicComputer.Text.Numeral

/-!
# Settings

What the environment says about runs. Settings are made once and then only looked at.
-/

namespace BasicComputer

structure Settings where
  /-- How many cycles a run may take unless the command says otherwise. -/
  maxSteps : Nat
  /-- Whether runs are traced. -/
  trace : Bool
  deriving DecidableEq, Repr

namespace Settings

def defaultMaxSteps : Nat := 100000

/-- The largest number of steps that can be asked for. -/
def largestMaxSteps : Nat := 18446744073709551615

/-- A number of steps in decimal digits. -/
def readMaxSteps (text : List Char) : Except NumeralFault Nat :=
  Numeral.readNat 10 largestMaxSteps text

/-- Settings from the texts of two variables. Blanks around the number do not count, and a text that is
no number is passed over; tracing is asked for by the text `1` alone. -/
def ofTexts (maxSteps trace : Option String) : Settings where
  maxSteps :=
    match maxSteps with
    | none => defaultMaxSteps
    | some text =>
      match readMaxSteps (trimBlanks text.toList) with
      | .ok n => n
      | .error _ => defaultMaxSteps
  trace := trace == some "1"

end Settings

/-- Misuse of the place where settings are kept. -/
inductive SettingsFault
  | notMade
  | madeTwice
  deriving DecidableEq, Repr

def SettingsFault.message : SettingsFault → String
  | .notMade => "tried to access environment state before initialization"
  | .madeTwice => "tried to initialize environment state multiple times"

/-- The place where settings are kept, empty at first. -/
structure SettingsStore where
  kept : Option Settings
  deriving DecidableEq, Repr

namespace SettingsStore

def empty : SettingsStore := ⟨none⟩

def make (store : SettingsStore) (settings : Settings) : Except SettingsFault SettingsStore :=
  match store.kept with
  | none => .ok ⟨some settings⟩
  | some _ => .error .madeTwice

def get (store : SettingsStore) : Except SettingsFault Settings :=
  match store.kept with
  | none => .error .notMade
  | some settings => .ok settings

end SettingsStore

end BasicComputer

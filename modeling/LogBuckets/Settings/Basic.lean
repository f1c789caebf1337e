import LogBuckets.Histogram.Basic

/-!
# `LogBuckets.Settings.Basic`: what a histogram is built from

Settings are the parameters of a layout and the rotation of the counts.
They need not be fit for a layout: that is found when they are put to
use. Each of the four fields is an integer of its own range.
-/

set_option autoImplicit false

namespace LogBuckets

/-- The parameters of a histogram. The defaults keep three figures of
values from 1 up to the number of microseconds in an hour. -/
structure Settings where
  lowest : Int64 := 1
  highest : Int64 := 3600000000
  figures : UInt32 := 3
  /-- By how many slots the counts are rotated. -/
  rotation : UInt64 := 0
  deriving DecidableEq, Repr

/-- The fields of the settings. -/
inductive Field where
  | lowest
  | highest
  | figures
  | rotation
  deriving DecidableEq, Repr

namespace Field

/-- The name of a field in a settings text. -/
def name : Field → String
  | .lowest => "lowest_trackable_value"
  | .highest => "highest_trackable_value"
  | .figures => "significant_figures"
  | .rotation => "index_offset"

/-- All fields, in the order in which they are written. -/
def all : List Field :=
  [.lowest, .highest, .figures, .rotation]

/-- The field of a name. -/
def ofName? (name : List Char) : Option Field :=
  all.find? (·.name.toList = name)

/-- The least integer that a field takes. -/
def least : Field → Int
  | .lowest | .highest => Int64.minValue.toInt
  | .figures | .rotation => 0

/-- The greatest integer that a field takes. -/
def greatest : Field → Int
  | .lowest | .highest => Int64.maxValue.toInt
  | .figures => UInt32.size - 1
  | .rotation => UInt64.size - 1

end Field

namespace Settings

/-- The integer in a field. -/
def get (s : Settings) : Field → Int
  | .lowest => s.lowest.toInt
  | .highest => s.highest.toInt
  | .figures => s.figures.toNat
  | .rotation => s.rotation.toNat

/-- The settings with another integer in a field, if it fits. -/
def set? (s : Settings) (f : Field) (i : Int) : Option Settings :=
  if f.least ≤ i ∧ i ≤ f.greatest then
    some
      (match f with
      | .lowest => { s with lowest := Int64.ofInt i }
      | .highest => { s with highest := Int64.ofInt i }
      | .figures => { s with figures := UInt32.ofNat i.toNat }
      | .rotation => { s with rotation := UInt64.ofNat i.toNat })
  else none

/-- The layout that the settings ask for. -/
def layout (s : Settings) : Except LayoutError Layout :=
  Layout.make s.lowest s.highest s.figures.toNat

/-- The empty histogram that the settings ask for. -/
def build (s : Settings) : Except LayoutError Histogram :=
  s.layout.map fun g => Histogram.empty g s.rotation.toNat

end Settings

end LogBuckets

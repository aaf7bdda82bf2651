import Campaign.Binary64

/-!
# Samples

A sample is a labelled list of measurements, one for each run of a campaign. It can be summarised
when it has values and all of them are finite.

* `Sample.validate`, `Sample.mean`;
* `Sample.Error`: why a sample cannot be summarised.

## Main statements

* `Sample.validate_eq_ok_iff`: validation accepts exactly the usable samples.
-/

namespace Campaign

/-- A labelled list of measurements. -/
structure Sample where
  label : String
  values : List Float
  deriving DecidableEq

namespace Sample

/-- Why a sample cannot be summarised. -/
inductive Error where
  | empty (label : String)
  /-- The first value that is infinite or not a number. -/
  | nonFinite (label : String) (index : Nat)
  /-- A percentile whose neighbours are not in the data. -/
  | noPercentile (label : String)
  deriving DecidableEq, Repr

/-- The text of an error. -/
def Error.message : Error → String
  | empty label => String.join ["sample '", label, "' is empty"]
  | nonFinite label index =>
    String.join ["sample '", label, "' contains a non-finite value at index ", toString index]
  | noPercentile label => String.join ["sample '", label, "' has no such percentile"]

/-- Checks that there are values and that all are finite. -/
def validate (s : Sample) : Except Error Unit :=
  if s.values.isEmpty then .error (.empty s.label)
  else
    match s.values.findIdx? (!·.isFinite) with
    | some index => .error (.nonFinite s.label index)
    | none => .ok ()

theorem validate_eq_ok_iff (s : Sample) :
    s.validate = .ok () ↔ s.values ≠ [] ∧ ∀ v ∈ s.values, v.isFinite = true := by
  simp only [validate]
  split
  · simp_all
  · rename_i h
    split
    · rename_i i hi
      have := List.findIdx?_eq_some_iff_getElem.1 hi
      obtain ⟨hlt, hbad, _⟩ := this
      simp only [reduceCtorEq, false_iff, not_and]
      intro _ hall
      have := hall _ (List.getElem_mem hlt)
      simp [this] at hbad
    · rename_i hn
      simp_all [List.findIdx?_eq_none_iff]

/-- The sum over the number of values. -/
def mean (s : Sample) : Except Error Float := do
  s.validate
  return Binary64.sum s.values / s.values.length.toFloat

end Sample

end Campaign

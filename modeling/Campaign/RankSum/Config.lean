/-!
# What a rank-sum comparison is asked for

The alternative hypothesis, the way the p-value is computed, and the names under which experiment
files, documents and command lines refer to them.

* `Alternative.swapped`: the alternative after the samples change places;
* `Config.resolve`: the method for samples of given sizes.

## Main statements

* `Alternative.ofName?_name`, `Method.ofName?_name`: a name names one choice.
-/

namespace Campaign.RankSum

/-- The hypothesis on the first sample against which the null hypothesis is tested. -/
inductive Alternative where
  /-- The first sample tends to smaller values. -/
  | less
  /-- The first sample tends to greater values. -/
  | greater
  /-- The samples differ in either direction. -/
  | twoSided
  deriving DecidableEq, Repr

/-- How a p-value is computed. -/
inductive Method where
  /-- Exact for small samples without ties, asymptotic otherwise. -/
  | auto
  /-- From the permutation distribution of the statistic. -/
  | exact
  /-- From the normal approximation with a correction for ties. -/
  | asymptotic
  deriving DecidableEq, Repr

namespace Alternative

/-- The alternative that says the same when the samples change places. -/
def swapped : Alternative → Alternative
  | less => greater
  | greater => less
  | twoSided => twoSided

/-- The written name. -/
def name : Alternative → String
  | less => "less"
  | greater => "greater"
  | twoSided => "two-sided"

/-- The alternative with a written name. -/
def ofName? (s : String) : Option Alternative :=
  [less, greater, twoSided].find? (·.name = s)

theorem ofName?_name (a : Alternative) : ofName? a.name = some a := by
  cases a <;> decide

end Alternative

namespace Method

/-- The written name. -/
def name : Method → String
  | auto => "auto"
  | exact => "exact"
  | asymptotic => "asymptotic"

/-- The method with a written name. -/
def ofName? (s : String) : Option Method :=
  [auto, exact, asymptotic].find? (·.name = s)

theorem ofName?_name (m : Method) : ofName? m.name = some m := by
  cases m <;> decide

end Method

/-- The choices of one comparison. -/
structure Config where
  alternative : Alternative := .less
  /-- Whether the normal approximation takes half a unit off the statistic; the exact method has
  no use for it. -/
  continuity : Bool := false
  method : Method := .auto
  deriving DecidableEq, Repr

/-- The largest size of the smaller sample for which `auto` is exact. -/
def exactThreshold : Nat := 8

/-- The method for samples of sizes `n₁` and `n₂`: `auto` is exact for samples without ties of
which one is small. -/
def Config.resolve (c : Config) (n₁ n₂ : Nat) (hasTies : Bool) : Method :=
  match c.method with
  | .auto => if !hasTies && min n₁ n₂ ≤ exactThreshold then .exact else .asymptotic
  | m => m

end Campaign.RankSum

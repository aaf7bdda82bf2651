import Campaign.Chart.Basic
import Campaign.Report.Basic

/-!
# The built-in reports

Results of a fuzzing campaign on engines for JavaScript: for each table of the evaluation the
measurements of its runs, mostly five for each configuration, and the comparisons made with them.
All comparisons ask whether the first sample tends to smaller values than the second.

* `Catalog.reports`, `Catalog.find?`: the reports;
* `Catalog.exampleChart`: a chart to try.
-/

namespace Campaign.Catalog

/-- Whether sample `x` tends to smaller values than sample `y`. -/
def less (title x y : String) : Comparison := { title, x, y }

/-! ### Plain and enhanced fuzzers -/

/-- Unique bugs found in each engine, by plain fuzzers and by enhanced ones. -/
def bug : Report where
  name := "bug"
  description := "Unique bugs found per engine (JSC, V8, Hermes, JerryScript)"
  samples := [
    ⟨"fuzzilli_jsc", [1.0, 1.0, 3.0, 2.0, 2.0]⟩,
    ⟨"bcfuzz_fuzzilli_jsc", [2.0, 4.0, 4.0, 4.0, 3.0]⟩,
    ⟨"die_jsc", [1.0, 2.0, 3.0, 2.0, 3.0]⟩,
    ⟨"bcfuzz_die_jsc", [3.0, 5.0, 4.0, 4.0, 2.0]⟩,
    ⟨"fuzzilli_v8", [1.0, 0.0, 0.0, 1.0, 1.0]⟩,
    ⟨"bcfuzz_fuzzilli_v8", [1.0, 1.0, 1.0, 1.0, 1.0]⟩,
    ⟨"die_v8", [0.0, 0.0, 0.0, 0.0, 1.0]⟩,
    ⟨"bcfuzz_die_v8", [1.0, 0.0, 1.0, 0.0, 2.0]⟩,
    ⟨"fuzzilli_hermes", [1.0, 0.0, 2.0, 2.0, 0.0]⟩,
    ⟨"bcfuzz_fuzzilli_hermes", [2.0, 1.0, 4.0, 3.0, 3.0]⟩,
    ⟨"die_hermes", [4.0, 3.0, 3.0, 4.0, 3.0]⟩,
    ⟨"bcfuzz_die_hermes", [5.0, 6.0, 4.0, 5.0, 5.0]⟩,
    ⟨"fuzzilli_jerry", [5.0, 4.0, 4.0, 5.0, 4.0]⟩,
    ⟨"bcfuzz_fuzzilli_jerry", [5.0, 8.0, 6.0, 8.0, 6.0]⟩,
    ⟨"die_jerry", [2.0, 2.0, 2.0, 2.0, 2.0]⟩,
    ⟨"bcfuzz_die_jerry", [3.0, 3.0, 2.0, 4.0, 4.0]⟩]
  comparisons := [
    less "fuzzilli_jsc" "fuzzilli_jsc" "bcfuzz_fuzzilli_jsc",
    less "die_jsc" "die_jsc" "bcfuzz_die_jsc",
    less "fuzzilli_v8" "fuzzilli_v8" "bcfuzz_fuzzilli_v8",
    less "die_v8" "die_v8" "bcfuzz_die_v8",
    less "fuzzilli_hermes" "fuzzilli_hermes" "bcfuzz_fuzzilli_hermes",
    less "die_hermes" "die_hermes" "bcfuzz_die_hermes",
    less "fuzzilli_jerry" "fuzzilli_jerry" "bcfuzz_fuzzilli_jerry",
    less "die_jerry" "die_jerry" "bcfuzz_die_jerry"]

/-- Line, function and branch coverage of two engines. -/
def coverage : Report where
  name := "coverage"
  description := "Line, function and branch coverage (%) on Hermes and JSC"
  samples := [
    ⟨"fuzzilli_hermes_line_cov", [59.5, 60.1, 58.9, 58.5, 59.2]⟩,
    ⟨"fuzzilli_hermes_func_cov", [60.8, 60.9, 59.9, 60.1, 60.7]⟩,
    ⟨"fuzzilli_hermes_branch_cov", [37.8, 38.3, 37.2, 37.1, 37.4]⟩,
    ⟨"bcfuzz_fuzzilli_hermes_line_cov", [58.3, 58.5, 58.3, 58.4]⟩,
    ⟨"bcfuzz_fuzzilli_hermes_func_cov", [59.5, 60.2, 59.9, 60.0]⟩,
    ⟨"bcfuzz_fuzzilli_hermes_branch_cov", [36.5, 36.8, 36.5, 36.4]⟩,
    ⟨"die_hermes_line_cov", [57.2, 57.1, 57.1, 57.2, 57.2]⟩,
    ⟨"die_hermes_func_cov", [56.0, 55.8, 55.8, 55.8, 55.8]⟩,
    ⟨"die_hermes_branch_cov", [40.5, 40.3, 40.3, 40.4, 40.5]⟩,
    ⟨"bcfuzz_die_hermes_line_cov", [56.9, 57.1, 56.8, 57.0, 57.0]⟩,
    ⟨"bcfuzz_die_hermes_func_cov", [55.7, 55.8, 55.7, 55.7, 55.7]⟩,
    ⟨"bcfuzz_die_hermes_branch_cov", [40.1, 40.2, 40.0, 40.0, 40.1]⟩,
    ⟨"fuzzilli_jsc_line_cov", [52.6, 52.2, 52.4, 52.0, 52.4]⟩,
    ⟨"fuzzilli_jsc_func_cov", [51.4, 51.1, 51.1, 51.0, 51.3]⟩,
    ⟨"fuzzilli_jsc_branch_cov", [37.0, 36.7, 36.8, 36.3, 36.9]⟩,
    ⟨"bcfuzz_fuzzilli_jsc_line_cov", [51.7, 51.9, 51.8, 52.2, 51.8]⟩,
    ⟨"bcfuzz_fuzzilli_jsc_func_cov", [50.7, 50.8, 50.8, 51.1, 50.7]⟩,
    ⟨"bcfuzz_fuzzilli_jsc_branch_cov", [35.9, 36.1, 36.0, 36.3, 36.0]⟩,
    ⟨"die_jsc_line_cov", [53.5, 53.4, 53.5, 53.4, 53.5]⟩,
    ⟨"die_jsc_func_cov", [53.6, 52.4, 52.5, 52.4, 52.6]⟩,
    ⟨"die_jsc_branch_cov", [36.3, 36.0, 36.2, 36.0, 36.2]⟩,
    ⟨"bcfuzz_die_jsc_line_cov", [54.2, 54.1, 54.2, 54.1, 54.1]⟩,
    ⟨"bcfuzz_die_jsc_func_cov", [53.0, 52.9, 53.1, 52.9, 53.0]⟩,
    ⟨"bcfuzz_die_jsc_branch_cov", [36.7, 36.5, 36.7, 36.6, 36.6]⟩]
  comparisons := [
    less "fuzzilli_hermes_line" "bcfuzz_fuzzilli_hermes_line_cov" "fuzzilli_hermes_line_cov",
    less "fuzzilli_hermes_func" "bcfuzz_fuzzilli_hermes_func_cov" "fuzzilli_hermes_func_cov",
    less "fuzzilli_hermes_branch" "bcfuzz_fuzzilli_hermes_branch_cov" "fuzzilli_hermes_branch_cov",
    less "die_hermes_line" "bcfuzz_die_hermes_line_cov" "die_hermes_line_cov",
    less "die_hermes_func" "bcfuzz_die_hermes_func_cov" "die_hermes_func_cov",
    less "die_hermes_branch" "bcfuzz_die_hermes_branch_cov" "die_hermes_branch_cov",
    less "fuzzilli_jsc_line" "bcfuzz_fuzzilli_jsc_line_cov" "fuzzilli_jsc_line_cov",
    less "fuzzilli_jsc_func" "bcfuzz_fuzzilli_jsc_func_cov" "fuzzilli_jsc_func_cov",
    less "fuzzilli_jsc_branch" "bcfuzz_fuzzilli_jsc_branch_cov" "fuzzilli_jsc_branch_cov",
    less "die_jsc_line" "die_jsc_line_cov" "bcfuzz_die_jsc_line_cov",
    less "die_jsc_func" "die_jsc_func_cov" "bcfuzz_die_jsc_func_cov",
    less "die_jsc_branch" "die_jsc_branch_cov" "bcfuzz_die_jsc_branch_cov"]

/-- How many distinct bytecodes are triggered. -/
def bytecodeNum : Report where
  name := "bytecode-num"
  description := "Number of distinct bytecodes triggered"
  meanLayout := .block
  samples := [
    ⟨"fuzzilli", [581.0, 584.0, 584.0, 582.0, 583.0]⟩,
    ⟨"bcfuzz_fuzzilli", [592.0, 593.0, 593.0, 593.0, 592.0]⟩,
    ⟨"die", [570.0, 570.0, 570.0, 570.0, 569.0]⟩,
    ⟨"bcfuzz_die", [596.0, 595.0, 596.0, 595.0, 597.0]⟩]
  comparisons := [
    less "fuzzilli" "fuzzilli" "bcfuzz_fuzzilli",
    less "die" "die" "bcfuzz_die"]

/-- How many tests trigger at least so many bytecodes. -/
def bytecodeTest : Report where
  name := "bytecode-test"
  description := "Bytecodes tested at least N times (N = 5, 15, 25)"
  precision := 1
  separator := false
  samples := [
    ⟨"least_5_bcfuzz_fuzzilli", [845.0, 767.1, 724.1, 951.4, 737.3]⟩,
    ⟨"least_15_bcfuzz_fuzzilli", [1414.0, 1423.4, 1424.3, 1636.0, 1282.2]⟩,
    ⟨"least_25_bcfuzz_fuzzilli", [1961.4, 2015.7, 1994.8, 2176.7, 1735.0]⟩,
    ⟨"least_5_fuzzilli", [96.1, 77.8, 85.9, 90.9, 101.8]⟩,
    ⟨"least_15_fuzzilli", [316.4, 333.3, 322.3, 315.3, 344.5]⟩,
    ⟨"least_25_fuzzilli", [642.3, 645.1, 623.4, 606.4, 659.1]⟩,
    ⟨"least_5_bcfuzz_die", [202.8, 86.6, 234.9, 149.0, 90.3]⟩,
    ⟨"least_15_bcfuzz_die", [421.0, 200.2, 436.9, 300.9, 221.1]⟩,
    ⟨"least_25_bcfuzz_die", [648.5, 318.7, 632.8, 448.3, 331.1]⟩,
    ⟨"least_5_die", [35.2, 18.5, 35.8, 24.1, 25.0]⟩,
    ⟨"least_15_die", [135.7, 96.8, 112.9, 145.5, 122.3]⟩,
    ⟨"least_25_die", [312.6, 216.7, 253.0, 303.6, 285.0]⟩]
  comparisons := [
    less "fuzzilli_5" "least_5_fuzzilli" "least_5_bcfuzz_fuzzilli",
    less "fuzzilli_15" "least_15_fuzzilli" "least_15_bcfuzz_fuzzilli",
    less "fuzzilli_25" "least_25_fuzzilli" "least_25_bcfuzz_fuzzilli",
    less "die_5" "least_5_die" "least_5_bcfuzz_die",
    less "die_15" "least_15_die" "least_15_bcfuzz_die",
    less "die_25" "least_25_die" "least_25_bcfuzz_die"]

/-! ### Variants that lack one part -/

/-- Unique bugs found by variants of the enhanced fuzzers that lack one part. -/
def ablationBug : Report where
  name := "ablation-bug"
  description := "Ablation study: unique bugs found"
  samples := [
    ⟨"bcfuzz_1", [2.0, 5.0, 3.0, 3.0, 3.0]⟩,
    ⟨"bcfuzz_gen", [2.0, 3.0, 1.0, 2.0, 1.0]⟩,
    ⟨"bcfuzz_nojitir", [1.0, 1.0, 0.0, 3.0, 2.0]⟩,
    ⟨"bcfuzz_noedge", [1.0, 3.0, 2.0, 3.0, 3.0]⟩,
    ⟨"bcfuzz_2", [4.0, 5.0, 3.0, 4.0, 5.0]⟩,
    ⟨"bcfuzz_mutate", [2.0, 3.0, 3.0, 2.0, 2.0]⟩,
    ⟨"bcfuzz_schedule", [4.0, 3.0, 2.0, 2.0, 4.0]⟩]
  comparisons := [
    less "bcfuzz_gen" "bcfuzz_gen" "bcfuzz_1",
    less "bcfuzz_nojitir" "bcfuzz_nojitir" "bcfuzz_1",
    less "bcfuzz_noedge" "bcfuzz_noedge" "bcfuzz_1",
    less "bcfuzz_mutate" "bcfuzz_mutate" "bcfuzz_2",
    less "bcfuzz_schedule" "bcfuzz_schedule" "bcfuzz_2"]

/-- How many distinct bytecodes the variants trigger. The comparison with `bcfuzz_noedge` stands
under a second `bcfuzz_nojit` title, under which its results were printed. -/
def ablationBytecodeNum : Report where
  name := "ablation-bytecode-num"
  description := "Ablation study: number of distinct bytecodes triggered (the bcfuzz_1 vs " ++
    "bcfuzz_noedge test is titled bcfuzz_nojit)"
  precision := 1
  samples := [
    ⟨"bcfuzz_1", [592.0, 589.0, 591.0, 586.0, 591.0]⟩,
    ⟨"bcfuzz_gen", [585.0, 590.0, 587.0, 588.0, 590.0]⟩,
    ⟨"bcfuzz_nojit", [178.0, 178.0, 177.0, 177.0, 176.0]⟩,
    ⟨"bcfuzz_noedge", [593.0, 592.0, 591.0, 585.0, 591.0]⟩,
    ⟨"bcfuzz_2", [587.0, 592.0, 584.0, 590.0, 587.0]⟩,
    ⟨"bcfuzz_mutate", [592.0, 590.0, 588.0, 589.0, 590.0]⟩,
    ⟨"bcfuzz_schedule", [591.0, 593.0, 590.0, 592.0, 588.0]⟩]
  comparisons := [
    less "bcfuzz_gen" "bcfuzz_gen" "bcfuzz_1",
    less "bcfuzz_nojit" "bcfuzz_nojit" "bcfuzz_1",
    less "bcfuzz_nojit" "bcfuzz_1" "bcfuzz_noedge",
    less "bcfuzz_mutate" "bcfuzz_2" "bcfuzz_mutate",
    less "bcfuzz_schedule" "bcfuzz_2" "bcfuzz_schedule"]

/-- How many tests of the variants trigger at least so many bytecodes. -/
def ablationBytecodeTest : Report where
  name := "ablation-bytecode-test"
  description := "Ablation study: bytecodes tested at least N times (N = 5, 15, 25)"
  precision := 1
  separator := false
  samples := [
    ⟨"least_5_bcfuzz_1", [383.7, 426.4, 293.3, 421.4, 513.3]⟩,
    ⟨"least_15_bcfuzz_1", [670.6, 763.9, 666.7, 794.7, 860.6]⟩,
    ⟨"least_25_bcfuzz_1", [991.1, 1093.7, 1015.2, 1171.5, 1199.6]⟩,
    ⟨"least_5_bcfuzz_nojit", [3313.2, 2166.9, 2577.9, 2395.9, 3898.2]⟩,
    ⟨"least_15_bcfuzz_nojit", [6332.5, 4965.3, 5780.8, 5414.4, 8363.0]⟩,
    ⟨"least_25_bcfuzz_nojit", [8816.1, 7345.3, 8357.7, 8319.6, 11746.9]⟩,
    ⟨"least_5_bcfuzz_noedge", [349.9, 273.1, 475.5, 583.1, 565.5]⟩,
    ⟨"least_15_bcfuzz_noedge", [769.3, 721.0, 789.9, 914.4, 949.2]⟩,
    ⟨"least_25_bcfuzz_noedge", [1115.3, 1108.1, 1044.0, 1204.4, 1302.5]⟩,
    ⟨"least_5_bcfuzz_edgeonly", [244.7, 80.8, 134.4, 69.1, 100.0]⟩,
    ⟨"least_15_bcfuzz_edgeonly", [1391.8, 853.7, 1043.7, 1083.0, 784.3]⟩,
    ⟨"least_25_bcfuzz_edgeonly", [3355.3, 2733.0, 3153.5, 3418.5, 2342.7]⟩,
    ⟨"least_5_bcfuzz_2", [2261.1, 2989.9, 2442.4, 2074.4, 1613.9]⟩,
    ⟨"least_15_bcfuzz_2", [2931.4, 4781.0, 3800.2, 3041.2, 2601.8]⟩,
    ⟨"least_25_bcfuzz_2", [4516.8, 7736.0, 5907.6, 5262.3, 3957.4]⟩,
    ⟨"least_5_bcfuzz_mutate", [2116.3, 2426.2, 2105.1, 2333.2, 1778.3]⟩,
    ⟨"least_15_bcfuzz_mutate", [2804.7, 3764.9, 2764.6, 3025.1, 2866.7]⟩,
    ⟨"least_25_bcfuzz_mutate", [4707.5, 6658.5, 4600.8, 5263.2, 4827.0]⟩,
    ⟨"least_5_bcfuzz_selection", [1026.2, 1155.3, 1373.7, 886.8, 900.9]⟩,
    ⟨"least_15_bcfuzz_selection", [2544.1, 4134.5, 3251.7, 2675.2, 2666.7]⟩,
    ⟨"least_25_bcfuzz_selection", [4724.3, 7979.0, 5250.9, 5322.2, 5124.0]⟩]
  comparisons := [
    less "5_bcfuzz_edgeonly" "least_5_bcfuzz_edgeonly" "least_5_bcfuzz_1",
    less "15_bcfuzz_edgeonly" "least_15_bcfuzz_1" "least_15_bcfuzz_edgeonly",
    less "25_bcfuzz_edgeonly" "least_25_bcfuzz_1" "least_25_bcfuzz_edgeonly",
    less "5_bcfuzz_nojit" "least_5_bcfuzz_1" "least_5_bcfuzz_nojit",
    less "15_bcfuzz_nojit" "least_15_bcfuzz_1" "least_15_bcfuzz_nojit",
    less "25_bcfuzz_nojit" "least_25_bcfuzz_1" "least_25_bcfuzz_nojit",
    less "5_bcfuzz_noedge" "least_5_bcfuzz_1" "least_5_bcfuzz_noedge",
    less "15_bcfuzz_noedge" "least_15_bcfuzz_1" "least_15_bcfuzz_noedge",
    less "25_bcfuzz_noedge" "least_25_bcfuzz_1" "least_25_bcfuzz_noedge",
    less "5_bcfuzz_mutate" "least_5_bcfuzz_mutate" "least_5_bcfuzz_2",
    less "15_bcfuzz_mutate" "least_15_bcfuzz_mutate" "least_15_bcfuzz_2",
    less "25_bcfuzz_mutate" "least_25_bcfuzz_mutate" "least_25_bcfuzz_2",
    less "5_bcfuzz_schedule" "least_5_bcfuzz_selection" "least_5_bcfuzz_2",
    less "15_bcfuzz_schedule" "least_15_bcfuzz_selection" "least_15_bcfuzz_2",
    less "25_bcfuzz_schedule" "least_25_bcfuzz_2" "least_25_bcfuzz_selection"]

/-! ### All of them -/

/-- The built-in reports, in the order of listing. -/
def reports : List Report :=
  [bug, coverage, bytecodeNum, bytecodeTest, ablationBug,
   ablationBytecodeNum, ablationBytecodeTest]

/-- The names of the built-in reports, in the same order. -/
def names : List String := reports.map (·.name)

/-- The built-in report with a name. -/
def find? (name : String) : Option Report := reports.find? (·.name = name)

/-- A chart of four bars. -/
def exampleChart : Chart where
  title := "Bar chart with error bars"
  yLabel := "Value"
  bars := [⟨"A", 10.0, 1.5⟩, ⟨"B", 15.0, 2.0⟩, ⟨"C", 7.0, 1.0⟩, ⟨"D", 12.0, 1.8⟩]

end Campaign.Catalog

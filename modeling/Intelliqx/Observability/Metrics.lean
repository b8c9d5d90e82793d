import Intelliqx.Base.Dict
import Intelliqx.Base.Ranks
import Intelliqx.Base.StableSort
import Mathlib.Data.String.Basic

/-!
# In-process metrics

Counters, gauges and histograms by name, each with its values by label set, and
the page that `render_prometheus` makes of them. A snapshot flattens label sets
to texts, so label sets that read the same are one entry of it.
-/

namespace Intelliqx.Observability

/-- What the module asks of Python's floats, apart from their order. -/
structure Floats (V : Type u) where
  ofNat : Nat → V
  add : V → V → V
  sum : List V → V
  str : V → List Char

/-- The floats that are whole numbers and not negative. -/
def wholeFloats : Floats Nat where
  ofNat := id
  add := (· + ·)
  sum := List.sum
  str n := Nat.toDigits 10 n ++ ['.', '0']

abbrev Label := List Char × List Char

/-- `tuple(sorted(labels.items()))`: keyword arguments have distinct names. -/
structure LabelSet where
  items : List Label
  sorted : items.Pairwise fun a b => a.1 < b.1
  deriving DecidableEq

def LabelSet.none : LabelSet := ⟨[], .nil⟩

def LabelSet.ofKwargs (labels : Dict (List Char) (List Char)) : LabelSet where
  items := sortBy Prod.fst labels.entries
  sorted := by
    have hnodup : ((sortBy Prod.fst labels.entries).map Prod.fst).Nodup :=
      (sortBy_perm.map Prod.fst).nodup_iff.mpr labels.nodup
    have hne := List.pairwise_map.mp hnodup
    exact (pairwise_sortBy.and hne).imp fun h => lt_of_le_of_ne h.1 h.2

/-- The `name{k=v,...}` of the snapshots. -/
def labelKey (name : List Char) (labels : LabelSet) : List Char :=
  name ++ '{' :: ([','].intercalate (labels.items.map fun l => l.1 ++ '=' :: l.2) ++ ['}'])

-- ---------------------------------------------------------------------------
-- The metrics
-- ---------------------------------------------------------------------------

section
variable {V : Type u}

/-- The values of a counter or a gauge. -/
abbrev Values (V : Type u) := Dict LabelSet V

/-- The observations of a histogram. -/
abbrev Samples (V : Type u) := Dict LabelSet (List V)

def Counter.inc (num : Floats V) (values : Values V) (amount : V) (labels : LabelSet) : Values V :=
  values.insert labels (num.add ((values.get? labels).getD (num.ofNat 0)) amount)

def Gauge.set (values : Values V) (value : V) (labels : LabelSet) : Values V := values.insert labels value

def Histogram.observe (samples : Samples V) (value : V) (labels : LabelSet) : Samples V :=
  samples.push labels value

/-- The dict comprehension of the snapshots of counters and gauges. -/
def flatSnapshot (name : List Char) (values : Values V) : Dict (List Char) V :=
  .index (fun e => labelKey name e.1) Prod.snd values.entries

def Counter.snapshot (name : List Char) (values : Values V) : Dict (List Char) V := flatSnapshot name values

def Gauge.snapshot (name : List Char) (values : Values V) : Dict (List Char) V := flatSnapshot name values

structure Stats (V : Type u) where
  count : V
  sum : V
  min : V
  max : V
  p50 : V
  p95 : V
  p99 : V

/-- The index of `pct`: `min(n - 1, int(p * n))` -/
def pctIndex (n : Nat) (p : ℚ) : Nat := min (n - 1) ⌊p * n⌋₊

variable [LinearOrder V]

theorem pctIndex_lt {samples : List V} (h : samples ≠ []) (p : ℚ) :
    pctIndex samples.length p < (inOrder samples).length := by
  have hpos := List.length_pos_iff.mpr h
  rw [length_inOrder, pctIndex]
  omega

/-- `pct` reads the sorted observations. -/
def pct (samples : List V) (p : ℚ) (h : samples ≠ []) : V :=
  (inOrder samples).get ⟨pctIndex samples.length p, pctIndex_lt h p⟩

/-- What the loop of `snapshot` computes for the observations of a label set. -/
def stats (num : Floats V) (samples : List V) : Option (Stats V) :=
  if h : samples = [] then none
  else some {
    count := num.ofNat samples.length
    sum := num.sum samples
    min := samples.tail.foldl min (samples.head h)
    max := samples.tail.foldl max (samples.head h)
    p50 := pct samples (1 / 2) h
    p95 := pct samples (19 / 20) h
    p99 := pct samples (99 / 100) h }

/-- The assignments to `out` in the loop of `snapshot`, one for each label set with observations. -/
def Histogram.assigned (num : Floats V) (samples : Samples V) : List (LabelSet × Stats V) :=
  samples.entries.filterMap fun e => (stats num e.2).map fun s => (e.1, s)

def Histogram.snapshot (num : Floats V) (name : List Char) (samples : Samples V) : Dict (List Char) (Stats V) :=
  .index (fun e => labelKey name e.1) Prod.snd (Histogram.assigned num samples)

-- ---------------------------------------------------------------------------
-- The registry
-- ---------------------------------------------------------------------------

structure MetricsRegistry (V : Type u) where
  counters : Dict (List Char) (Values V) := .empty
  gauges : Dict (List Char) (Values V) := .empty
  histograms : Dict (List Char) (Samples V) := .empty

namespace MetricsRegistry

/-- `registry.counter(name).inc(amount, **labels)` -/
def inc (num : Floats V) (r : MetricsRegistry V) (name : List Char) (amount : V) (labels : LabelSet) :
    MetricsRegistry V :=
  let values := Counter.inc num ((r.counters.get? name).getD .empty) amount labels
  { r with counters := r.counters.insert name values }

/-- `registry.gauge(name).set(value, **labels)` -/
def set (r : MetricsRegistry V) (name : List Char) (value : V) (labels : LabelSet) : MetricsRegistry V :=
  let values := Gauge.set ((r.gauges.get? name).getD .empty) value labels
  { r with gauges := r.gauges.insert name values }

/-- `registry.histogram(name).observe(value, **labels)` -/
def observe (r : MetricsRegistry V) (name : List Char) (value : V) (labels : LabelSet) : MetricsRegistry V :=
  let samples := Histogram.observe ((r.histograms.get? name).getD .empty) value labels
  { r with histograms := r.histograms.insert name samples }

end MetricsRegistry

inductive Metric (V : Type u)
  | counter (name : List Char) (values : Values V)
  | gauge (name : List Char) (values : Values V)
  | histogram (name : List Char) (samples : Samples V)

/-- The metrics in the order of the page. -/
def MetricsRegistry.metrics (r : MetricsRegistry V) : List (Metric V) :=
  r.counters.entries.map (fun e => .counter e.1 e.2) ++ r.gauges.entries.map (fun e => .gauge e.1 e.2) ++
    r.histograms.entries.map fun e => .histogram e.1 e.2

-- ---------------------------------------------------------------------------
-- render_prometheus
-- ---------------------------------------------------------------------------

def Stats.named (s : Stats V) : List (List Char × V) :=
  [("count".toList, s.count), ("sum".toList, s.sum), ("min".toList, s.min), ("max".toList, s.max),
    ("p50".toList, s.p50), ("p95".toList, s.p95), ("p99".toList, s.p99)]

def sampleLine (num : Floats V) (key : List Char) (value : V) : List Char := key ++ ' ' :: num.str value

/-- The lines of an entry of a histogram: the key is split in front of its first brace. -/
def statLines (num : Floats V) (key : List Char) (s : Stats V) : List (List Char) :=
  s.named.map fun e =>
    sampleLine num (key.takeWhile (· ≠ '{') ++ '_' :: (e.1 ++ key.dropWhile (· ≠ '{'))) e.2

def typeMark : List Char := "# TYPE ".toList

def typeLine (name kind : List Char) : List Char := typeMark ++ (name ++ ' ' :: kind)

def Metric.typeLine : Metric V → List Char
  | .counter name _ => Observability.typeLine name "counter".toList
  | .gauge name _ => Observability.typeLine name "gauge".toList
  | .histogram name _ => Observability.typeLine name "summary".toList

def Metric.sampleLines (num : Floats V) : Metric V → List (List Char)
  | .counter name values => (Counter.snapshot name values).entries.map fun e => sampleLine num e.1 e.2
  | .gauge name values => (Gauge.snapshot name values).entries.map fun e => sampleLine num e.1 e.2
  | .histogram name samples => (Histogram.snapshot num name samples).entries.flatMap fun e => statLines num e.1 e.2

def pageLines (num : Floats V) (r : MetricsRegistry V) : List (List Char) :=
  r.metrics.flatMap fun m => m.typeLine :: m.sampleLines num

def renderPrometheus (num : Floats V) (r : MetricsRegistry V) : List Char :=
  ['\n'].intercalate (pageLines num r) ++ ['\n']

end

end Intelliqx.Observability

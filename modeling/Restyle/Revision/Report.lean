/-!
# Reports

A `Report` counts what was done to a document.
-/

namespace Restyle.Revision

/-- Counts of what was done. -/
structure Report where
  /-- Style sources that were written back. -/
  sourcesRevised : Nat
  /-- Style sources that were left alone because they are malformed. -/
  sourcesSkipped : Nat
  /-- Style rules that were removed. -/
  rulesRemoved : Nat
  /-- Elements that were removed, without those inside them. -/
  elementsRemoved : Nat
  /-- Values that were replaced by a gray. -/
  colorsReplaced : Nat
deriving DecidableEq, Repr

namespace Report

/-- The report that nothing was done. -/
def zero : Report :=
  ⟨0, 0, 0, 0, 0⟩

/-- The sum of two reports. -/
def add (a b : Report) : Report :=
  ⟨a.sourcesRevised + b.sourcesRevised, a.sourcesSkipped + b.sourcesSkipped,
    a.rulesRemoved + b.rulesRemoved, a.elementsRemoved + b.elementsRemoved,
    a.colorsReplaced + b.colorsReplaced⟩

instance : Add Report :=
  ⟨add⟩

/-- The counts with their names. -/
def entries (r : Report) : List (String × Nat) :=
  [("sources_rewritten", r.sourcesRevised), ("sources_skipped", r.sourcesSkipped),
    ("rules_removed", r.rulesRemoved), ("elements_removed", r.elementsRemoved),
    ("colors_rewritten", r.colorsReplaced)]

/-- The report in one line. -/
def summary (r : Report) : String :=
  r.sourcesRevised.repr ++ " sources rewritten, " ++ r.sourcesSkipped.repr ++ " skipped, " ++
    r.rulesRemoved.repr ++ " rules removed, " ++ r.elementsRemoved.repr ++ " elements removed, " ++
    r.colorsReplaced.repr ++ " colors rewritten"

end Report

end Restyle.Revision

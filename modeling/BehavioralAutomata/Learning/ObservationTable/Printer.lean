import BehavioralAutomata.Learning.ObservationTable.Basic
import BehavioralAutomata.Text.Renderer

/-!
# Printing observation tables

One row per base word, in blue, and one column per experiment.
-/

namespace BehavioralAutomata.ObservationTable

open Text

variable {β : Type} [DecidableEq β] [Render β] [Renderer]

def table (T : ObservationTable β) : String :=
  layout ("MR" :: T.experiments.map render) <|
    T.base.map fun w => paint .blue (render w) :: (T.row w).map render

end BehavioralAutomata.ObservationTable

import FormulaSql.Function.Aggregations
import FormulaSql.Function.Arrays
import FormulaSql.Function.Dates
import FormulaSql.Function.Logic
import FormulaSql.Function.Lookups
import FormulaSql.Function.Mathematics
import FormulaSql.Function.Operators
import FormulaSql.Function.Texts
import FormulaSql.Function.Windows

/-!
# The catalogue of functions
-/

namespace FormulaSql

/-- All definitions there are. -/
def catalogue : List Definition :=
  Function.operators ++ Function.logic ++ Function.aggregations ++ Function.mathematics ++
    Function.conversions ++ Function.texts ++ Function.dateFunctions ++ Function.arrays ++
    Function.lookups ++ Function.windows

end FormulaSql

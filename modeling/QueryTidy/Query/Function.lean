import QueryTidy.Query.Expr

/-!
# The functions of the language

The table of all functions, by the types of their parameters.
-/

namespace QueryTidy.Signature

/-- Signatures of the same shape. -/
def family (params : List ValueType) (variadic : Bool) (result : ValueType) (names : List String) :
    List Signature :=
  names.map fun name => ⟨name.toList, params, variadic, result⟩

/-- All functions. -/
def all : List Signature :=
  family [.vector] false .vector
    ["abs", "absent", "acos", "acosh", "asin", "asinh", "atan", "atanh", "ceil", "cos", "cosh",
      "deg", "exp", "floor", "histogram_count", "histogram_sum", "ln", "log10", "log2", "rad",
      "sgn", "sin", "sinh", "sort", "sort_desc", "sqrt", "tan", "tanh", "timestamp"] ++
  family [.vector] true .vector
    ["days_in_month", "day_of_month", "day_of_week", "day_of_year", "hour", "minute", "month",
      "year"] ++
  family [.vector] false .scalar ["scalar"] ++
  family [.matrix] false .vector
    ["absent_over_time", "avg_over_time", "changes", "count_over_time", "delta", "deriv",
      "idelta", "increase", "irate", "last_over_time", "max_over_time", "min_over_time",
      "present_over_time", "rate", "resets", "stddev_over_time", "stdvar_over_time",
      "sum_over_time"] ++
  family [.vector, .scalar, .scalar] false .vector ["clamp"] ++
  family [.vector, .scalar] false .vector ["clamp_max", "clamp_min"] ++
  family [.vector, .scalar] true .vector ["round"] ++
  family [.scalar, .scalar, .vector] false .vector ["histogram_fraction"] ++
  family [.scalar, .vector] false .vector ["histogram_quantile"] ++
  family [.matrix, .scalar, .scalar] false .vector ["holt_winters"] ++
  family [.vector, .string, .string, .string, .string] false .vector ["label_replace"] ++
  family [.vector, .string, .string, .string] true .vector ["label_join"] ++
  family [.matrix, .scalar] false .vector ["predict_linear"] ++
  family [.scalar, .matrix] false .vector ["quantile_over_time"] ++
  family [.vector, .string, .string] true .vector ["sort_by_label", "sort_by_label_desc"] ++
  family [.scalar] false .vector ["vector"] ++
  family [] false .scalar ["pi", "time"]

/-- The function with the given name; case matters. -/
def ofName? (name : Text) : Option Signature :=
  all.find? fun f => f.name = name

/-- The last parameter may be given any number of times. -/
def isUnbounded (f : Signature) : Bool :=
  f.name = "label_join".toList || f.name = "sort_by_label".toList ||
    f.name = "sort_by_label_desc".toList

end QueryTidy.Signature

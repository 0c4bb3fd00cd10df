import Calculation.Signature.Table

namespace Calculation.SignatureTable

/-- Functions of one category, each with its name, its least and greatest number of arguments, the types of
its arguments and the type of its result. -/
def family (category : Category) (rows : List (String × Nat × Nat × List String × String)) : List Signature :=
  rows.map fun (name, minArgs, maxArgs, argTypes, returnType) =>
    ⟨name, minArgs, some maxArgs, argTypes, returnType, category⟩

def aggregates : List Signature :=
  family .aggregate
    [("SUM", 1, 1, ["number"], "number"),
      ("AVG", 1, 1, ["number"], "number"),
      ("MIN", 1, 2, ["any", "any"], "any"),
      ("MAX", 1, 2, ["any", "any"], "any"),
      ("COUNT", 1, 1, ["any"], "integer"),
      ("COUNTD", 1, 1, ["any"], "integer"),
      ("MEDIAN", 1, 1, ["number"], "number"),
      ("ATTR", 1, 1, ["any"], "any"),
      ("STDEV", 1, 1, ["number"], "number"),
      ("STDEVP", 1, 1, ["number"], "number"),
      ("VAR", 1, 1, ["number"], "number"),
      ("VARP", 1, 1, ["number"], "number"),
      ("PERCENTILE", 2, 2, ["number", "number"], "number"),
      ("CORR", 2, 2, ["number", "number"], "number"),
      ("COVAR", 2, 2, ["number", "number"], "number"),
      ("COVARP", 2, 2, ["number", "number"], "number")]

def tableCalculations : List Signature :=
  family .tableCalculation
    [("RUNNING_SUM", 1, 1, ["number"], "number"),
      ("RUNNING_AVG", 1, 1, ["number"], "number"),
      ("RUNNING_COUNT", 1, 1, ["any"], "number"),
      ("RUNNING_MIN", 1, 1, ["number"], "number"),
      ("RUNNING_MAX", 1, 1, ["number"], "number"),
      ("WINDOW_SUM", 1, 3, ["number", "integer", "integer"], "number"),
      ("WINDOW_AVG", 1, 3, ["number", "integer", "integer"], "number"),
      ("WINDOW_MIN", 1, 3, ["number", "integer", "integer"], "number"),
      ("WINDOW_MAX", 1, 3, ["number", "integer", "integer"], "number"),
      ("WINDOW_COUNT", 1, 3, ["any", "integer", "integer"], "number"),
      ("WINDOW_MEDIAN", 1, 3, ["number", "integer", "integer"], "number"),
      ("INDEX", 0, 0, [], "integer"),
      ("FIRST", 0, 0, [], "integer"),
      ("LAST", 0, 0, [], "integer"),
      ("SIZE", 0, 0, [], "integer"),
      ("RANK", 1, 2, ["number", "string"], "integer"),
      ("RANK_DENSE", 1, 2, ["number", "string"], "integer"),
      ("RANK_UNIQUE", 1, 2, ["number", "string"], "integer"),
      ("RANK_PERCENTILE", 1, 2, ["number", "string"], "number"),
      ("LOOKUP", 1, 2, ["any", "integer"], "any"),
      ("PREVIOUS_VALUE", 1, 1, ["any"], "any"),
      ("TOTAL", 1, 1, ["any"], "any")]

def logicals : List Signature :=
  family .logical
    [("IIF", 3, 4, ["boolean", "any", "any", "any"], "any"),
      ("IFNULL", 2, 2, ["any", "any"], "any"),
      ("ISNULL", 1, 1, ["any"], "boolean"),
      ("ZN", 1, 1, ["number"], "number"),
      ("ISDATE", 1, 1, ["string"], "boolean")]

def strings : List Signature :=
  family .string
    [("LEN", 1, 1, ["string"], "integer"),
      ("LEFT", 2, 2, ["string", "integer"], "string"),
      ("RIGHT", 2, 2, ["string", "integer"], "string"),
      ("MID", 2, 3, ["string", "integer", "integer"], "string"),
      ("UPPER", 1, 1, ["string"], "string"),
      ("LOWER", 1, 1, ["string"], "string"),
      ("TRIM", 1, 1, ["string"], "string"),
      ("LTRIM", 1, 1, ["string"], "string"),
      ("RTRIM", 1, 1, ["string"], "string"),
      ("CONTAINS", 2, 2, ["string", "string"], "boolean"),
      ("STARTSWITH", 2, 2, ["string", "string"], "boolean"),
      ("ENDSWITH", 2, 2, ["string", "string"], "boolean"),
      ("FIND", 2, 3, ["string", "string", "integer"], "integer"),
      ("REPLACE", 3, 3, ["string", "string", "string"], "string"),
      ("SPLIT", 3, 3, ["string", "string", "integer"], "string"),
      ("SPACE", 1, 1, ["integer"], "string"),
      ("ASCII", 1, 1, ["string"], "integer"),
      ("CHAR", 1, 1, ["integer"], "string")]

def numbers : List Signature :=
  family .number
    [("ABS", 1, 1, ["number"], "number"),
      ("ROUND", 1, 2, ["number", "integer"], "number"),
      ("CEILING", 1, 1, ["number"], "integer"),
      ("FLOOR", 1, 1, ["number"], "integer"),
      ("SQRT", 1, 1, ["number"], "number"),
      ("POWER", 2, 2, ["number", "number"], "number"),
      ("EXP", 1, 1, ["number"], "number"),
      ("LN", 1, 1, ["number"], "number"),
      ("LOG", 1, 2, ["number", "number"], "number"),
      ("SIGN", 1, 1, ["number"], "integer"),
      ("DIV", 2, 2, ["integer", "integer"], "integer"),
      ("PI", 0, 0, [], "number")]

def dates : List Signature :=
  family .date
    [("DATEADD", 3, 3, ["string", "integer", "date"], "date"),
      ("DATEDIFF", 3, 4, ["string", "date", "date", "string"], "integer"),
      ("DATEPART", 2, 3, ["string", "date", "string"], "integer"),
      ("DATETRUNC", 2, 3, ["string", "date", "string"], "date"),
      ("DATENAME", 2, 3, ["string", "date", "string"], "string"),
      ("MAKEDATE", 3, 3, ["integer", "integer", "integer"], "date"),
      ("MAKEDATETIME", 2, 2, ["date", "datetime"], "datetime"),
      ("TODAY", 0, 0, [], "date"),
      ("NOW", 0, 0, [], "datetime"),
      ("YEAR", 1, 1, ["date"], "integer"),
      ("QUARTER", 1, 1, ["date"], "integer"),
      ("MONTH", 1, 1, ["date"], "integer"),
      ("WEEK", 1, 1, ["date"], "integer"),
      ("DAY", 1, 1, ["date"], "integer")]

def conversions : List Signature :=
  family .typeConversion
    [("STR", 1, 1, ["any"], "string"),
      ("INT", 1, 1, ["any"], "integer"),
      ("FLOAT", 1, 1, ["any"], "number"),
      ("DATE", 1, 1, ["any"], "date"),
      ("DATETIME", 1, 1, ["any"], "datetime")]

def users : List Signature :=
  family .user
    [("USERNAME", 0, 0, [], "string"),
      ("FULLNAME", 0, 0, [], "string"),
      ("ISMEMBEROF", 1, 1, ["string"], "boolean")]

def builtin : SignatureTable :=
  ofList (aggregates ++ tableCalculations ++ logicals ++ strings ++ numbers ++ dates ++ conversions ++ users)

end Calculation.SignatureTable

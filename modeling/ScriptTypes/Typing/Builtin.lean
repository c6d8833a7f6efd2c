import ScriptTypes.Ty.Basic

/-!
# The types of the standard library

What is known beforehand of JavaScript's global functions, constructors, namespaces, methods and
properties.
-/

namespace ScriptTypes.Builtin

/-! ## Types with a name -/

/-- A map of which nothing more is known. -/
def mapType : Ty := .generic "Map" [.any, .any]

/-- A set of which nothing more is known. -/
def setType : Ty := .generic "Set" [.any]

/-! ## Functions, constructors and namespaces -/

/-- What the global functions return. -/
def globalCalls : List (String × Ty) :=
  [("String", .string), ("Number", .number), ("Boolean", .boolean), ("Array", .array .any),
   ("Object", .object), ("Function", .function), ("RegExp", .regExp), ("Date", .date),
   ("Promise", .promise .any), ("Map", mapType), ("Set", setType), ("parseInt", .number),
   ("parseFloat", .number), ("isNaN", .boolean), ("isFinite", .boolean), ("encodeURI", .string),
   ("encodeURIComponent", .string), ("decodeURI", .string), ("decodeURIComponent", .string),
   ("atob", .string), ("btoa", .string), ("setTimeout", .number), ("setInterval", .number),
   ("clearTimeout", .void), ("clearInterval", .void)]

/-- What the constructors build. -/
def constructors : List (String × Ty) :=
  [("Date", .date), ("Error", .generic "Error" []), ("TypeError", .generic "TypeError" []),
   ("RangeError", .generic "RangeError" []), ("SyntaxError", .generic "SyntaxError" []),
   ("RegExp", .regExp), ("Map", mapType), ("Set", setType),
   ("WeakMap", .generic "WeakMap" [.any, .any]), ("WeakSet", .generic "WeakSet" [.any]),
   ("Array", .array .any), ("Object", .object)]

/-- What the functions of the namespaces return. -/
def staticMethods : List ((String × String) × Ty) :=
  [(("Object", "keys"), .array .string), (("Object", "values"), .array .any),
   (("Object", "entries"), .array (.array .any)),
   (("Object", "getOwnPropertyNames"), .array .string), (("Object", "assign"), .object),
   (("Object", "create"), .object), (("Object", "freeze"), .object), (("Object", "seal"), .object),
   (("Object", "fromEntries"), .object), (("Object", "is"), .boolean),
   (("Object", "isFrozen"), .boolean), (("Object", "isSealed"), .boolean),
   (("Array", "isArray"), .boolean), (("Array", "from"), .array .any),
   (("Array", "of"), .array .any), (("JSON", "stringify"), .string),
   (("Number", "isInteger"), .boolean), (("Number", "isSafeInteger"), .boolean),
   (("Number", "isNaN"), .boolean), (("Number", "isFinite"), .boolean),
   (("Number", "parseInt"), .number), (("Number", "parseFloat"), .number),
   (("String", "fromCharCode"), .string), (("String", "fromCodePoint"), .string),
   (("String", "raw"), .string), (("Date", "now"), .number), (("Date", "parse"), .number),
   (("Date", "UTC"), .number), (("Promise", "all"), .promise (.array .any)),
   (("Promise", "allSettled"), .promise (.array .any)), (("Promise", "race"), .promise .any),
   (("Promise", "any"), .promise .any), (("Promise", "reject"), .promise .any)]

/-- The namespaces all of whose functions return a number. -/
def numericNamespaces : List String := ["Math"]

/-- The constants of the namespaces. -/
def staticProperties : List ((String × String) × Ty) :=
  [(("Math", "PI"), .number), (("Math", "E"), .number), (("Math", "LN2"), .number),
   (("Math", "LN10"), .number), (("Math", "SQRT2"), .number),
   (("Number", "MAX_SAFE_INTEGER"), .number), (("Number", "MIN_SAFE_INTEGER"), .number),
   (("Number", "MAX_VALUE"), .number), (("Number", "MIN_VALUE"), .number),
   (("Number", "EPSILON"), .number), (("Number", "NaN"), .number),
   (("Number", "POSITIVE_INFINITY"), .number), (("Number", "NEGATIVE_INFINITY"), .number)]

/-! ## Methods -/

/-- What the methods of strings return; all others return a string. -/
def stringMethods : List (String × Ty) :=
  [("split", .array .string), ("indexOf", .number), ("lastIndexOf", .number), ("search", .number),
   ("charCodeAt", .number), ("codePointAt", .number), ("localeCompare", .number),
   ("includes", .boolean), ("startsWith", .boolean), ("endsWith", .boolean),
   ("match", .union [.array .string, .null]), ("matchAll", .array (.array .string))]

/-- What the methods of numbers return. -/
def numberMethods : List (String × Ty) :=
  [("toFixed", .string), ("toPrecision", .string), ("toExponential", .string),
   ("toString", .string), ("toLocaleString", .string), ("valueOf", .number)]

/-- The methods of arrays that return an array of the same type. -/
def arraySelf : List String :=
  ["filter", "slice", "concat", "sort", "reverse", "toSorted", "toReversed", "splice", "fill",
   "copyWithin"]

/-- The methods of arrays that return a number. -/
def arrayNumber : List String :=
  ["indexOf", "lastIndexOf", "findIndex", "findLastIndex", "push", "unshift"]

/-- The methods of arrays that return a truth value. -/
def arrayBoolean : List String := ["every", "some", "includes"]

/-- The methods of arrays that return a string. -/
def arrayString : List String := ["join", "toString", "toLocaleString"]

/-- The methods of arrays that return nothing. -/
def arrayVoid : List String := ["forEach"]

/-- The methods of arrays that return an element, if there is one. -/
def arrayElement : List String := ["pop", "shift", "find", "findLast", "at"]

/-- The methods of arrays that combine the elements into one value. -/
def arrayReduce : List String := ["reduce", "reduceRight"]

/-- The methods of arrays that order the elements. -/
def arraySort : List String := ["sort", "toSorted"]

/-- The methods of arrays whose first argument is called with each element. -/
def elementCallback : List String :=
  ["every", "filter", "find", "findIndex", "findLast", "findLastIndex", "flatMap", "forEach", "map",
   "some"]

/-- What the methods of the named types return. -/
def genericMethods : List ((String × String) × Ty) :=
  [(("RegExp", "test"), .boolean), (("RegExp", "toString"), .string),
   (("Map", "get"), .any), (("Map", "has"), .boolean), (("Map", "delete"), .boolean),
   (("Map", "set"), mapType), (("Map", "clear"), .void), (("Map", "forEach"), .void),
   (("Map", "keys"), .array .any), (("Map", "values"), .array .any),
   (("Set", "has"), .boolean), (("Set", "delete"), .boolean), (("Set", "add"), setType),
   (("Set", "clear"), .void), (("Set", "forEach"), .void), (("Set", "values"), .array .any),
   (("Date", "toISOString"), .string), (("Date", "toJSON"), .string),
   (("Date", "toString"), .string), (("Date", "toDateString"), .string),
   (("Date", "toTimeString"), .string), (("Date", "toLocaleString"), .string),
   (("Date", "toLocaleDateString"), .string), (("Date", "toLocaleTimeString"), .string),
   (("Date", "toUTCString"), .string), (("Date", "valueOf"), .number),
   (("Promise", "then"), .promise .any), (("Promise", "catch"), .promise .any),
   (("Promise", "finally"), .promise .any)]

/-! ## Properties -/

/-- The properties of the named types. -/
def genericProperties : List ((String × String) × Ty) :=
  [(("RegExp", "source"), .string), (("RegExp", "flags"), .string),
   (("RegExp", "global"), .boolean), (("RegExp", "ignoreCase"), .boolean),
   (("RegExp", "multiline"), .boolean),
   (("RegExp", "lastIndex"), .number), (("Map", "size"), .number), (("Set", "size"), .number),
   (("Error", "message"), .string), (("Error", "name"), .string), (("Error", "stack"), .string)]

/-! ## Names that speak for a type -/

/-- Methods that only strings have. -/
def onlyStringMethods : List String :=
  ["charAt", "charCodeAt", "codePointAt", "endsWith", "localeCompare", "match", "matchAll",
   "normalize", "padEnd", "padStart", "repeat", "replace", "replaceAll", "search", "split",
   "startsWith", "substr", "substring", "toLowerCase", "toUpperCase", "trim", "trimEnd",
   "trimStart"]

/-- Methods that only arrays have. -/
def onlyArrayMethods : List String :=
  ["every", "fill", "filter", "find", "findIndex", "findLast", "findLastIndex", "flat", "flatMap",
   "forEach", "join", "map", "pop", "push", "reduce", "reduceRight", "reverse", "shift", "some",
   "sort", "splice", "unshift"]

end ScriptTypes.Builtin

import ScriptTypes.Confidence.Basic

/-!
# Levels of confidence

How strongly each kind of evidence speaks, the thresholds that a guess has to reach before it is
built upon, and the factors by which a guess fades when it is passed on.
-/

namespace ScriptTypes.Confidence

/-! ## What a form is worth -/

/-- A literal. -/
def certain : Confidence := one

/-- A name that is declared and nothing more. -/
def floor : Confidence := zero

/-- A form that says nothing about its type. -/
def unknown : Confidence := percent 10

/-- A call of something unknown. -/
def unknownCall : Confidence := percent 30

/-- An array whose elements have one type. -/
def uniformArray : Confidence := percent 90

/-- The empty array. -/
def emptyArray : Confidence := percent 70

/-- An array of elements of several or unknown types. -/
def mixedArray : Confidence := percent 80

/-- An object literal, and the rest of a destructured object. -/
def objectLiteral : Confidence := percent 80

/-- A function literal that is not evaluated. -/
def functionLiteral : Confidence := percent 90

/-- A function literal without a name, evaluated or not. -/
def functionExpression : Confidence := percent 80

/-- The placeholder of a declared function. -/
def functionDeclaration : Confidence := percent 70

/-- A call of a known global function. -/
def knownCall : Confidence := percent 80

/-- A call of a known constructor. -/
def knownConstructor : Confidence := percent 90

/-- A constructor that is no plain name. -/
def objectFallback : Confidence := percent 50

/-- A constructor that is not known. -/
def unknownConstructor : Confidence := percent 70

/-- A member of a known namespace. -/
def staticMember : Confidence := percent 90

/-- The most that a method of a known type is worth. -/
def methodReturn : Confidence := percent 90

/-- A rest parameter. -/
def restParameter : Confidence := percent 80

/-- The result of an operator. -/
def operator : Confidence := percent 90

/-- A sum of operands that are neither both numbers nor include a string. -/
def ambiguousPlus : Confidence := percent 30

/-- A function that returns nothing. -/
def voidReturn : Confidence := percent 50

/-- A promise executor that resolves with nothing known. -/
def executorDefault : Confidence := percent 50

/-- A promise of which nothing is known. -/
def promiseFallback : Confidence := percent 60

/-- A union that fell apart. -/
def collapsedUnion : Confidence := percent 30

/-- Direct evidence from the use of a name. -/
def usage : Confidence := percent 80

/-- A sum with a name already taken for a number. -/
def usageNumericPlus : Confidence := percent 70

/-- A sum that says number or string. -/
def usageAmbiguous : Confidence := percent 50

/-! ## Thresholds -/

/-- What an element, a callback result or an initial value must reach to be built upon. -/
def elementMin : Confidence := percent 70

/-- What both branches of a union must reach; also the least a union is worth. -/
def unionMin : Confidence := percent 70

/-- The least a promise of a known value is worth. -/
def promiseMin : Confidence := percent 70

/-- The least a signature is worth. -/
def signatureMin : Confidence := percent 60

/-- The most a signature is worth. -/
def signatureMax : Confidence := percent 95

/-- A return type at this level is final. -/
def resolvedReturn : Confidence := percent 90

/-- Evidence from use is not weighed against guesses at or above this level. -/
def usageCeiling : Confidence := percent 95

/-! ## Fading -/

/-- A value passed on through another name. -/
def assignmentDecay : Confidence := percent 90

/-- The value of an awaited promise. -/
def awaitDecay : Confidence := percent 95

/-- Two different types joined. -/
def unionDecay : Confidence := percent 90

/-- Two equal types joined. -/
def sameUnionDecay : Confidence := percent 95

/-- A value handed to a promise. -/
def resolveDecay : Confidence := percent 90

/-- A value handed to a callback. -/
def callbackDecay : Confidence := percent 90

/-- The result of a function known by its signature only. -/
def callDecay : Confidence := percent 90

end ScriptTypes.Confidence

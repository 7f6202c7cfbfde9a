/-!
# Faults of running code

The kinds of exception that the machine itself raises, each with the class of its exceptions.
-/

namespace ManagedCore

inductive Fault where
  | nullPointer | arrayIndexOutOfBounds | arrayStore | arithmetic | negativeArraySize | outOfMemory
  | classCast | stackOverflow | noSuchMethod | noSuchField | illegalMonitorState | noClassDefFound
deriving DecidableEq, Repr

namespace Fault

def all : List Fault :=
  [nullPointer, arrayIndexOutOfBounds, arrayStore, arithmetic, negativeArraySize, outOfMemory,
    classCast, stackOverflow, noSuchMethod, noSuchField, illegalMonitorState, noClassDefFound]

def name : Fault → String
  | nullPointer => "NullPointer"
  | arrayIndexOutOfBounds => "ArrayIndexOutOfBounds"
  | arrayStore => "ArrayStore"
  | arithmetic => "Arithmetic"
  | negativeArraySize => "NegativeArraySize"
  | outOfMemory => "OutOfMemory"
  | classCast => "ClassCast"
  | stackOverflow => "StackOverflow"
  | noSuchMethod => "NoSuchMethod"
  | noSuchField => "NoSuchField"
  | illegalMonitorState => "IllegalMonitorState"
  | noClassDefFound => "NoClassDefFound"

def className : Fault → String
  | nullPointer => "java/lang/NullPointerException"
  | arrayIndexOutOfBounds => "java/lang/ArrayIndexOutOfBoundsException"
  | arrayStore => "java/lang/ArrayStoreException"
  | arithmetic => "java/lang/ArithmeticException"
  | negativeArraySize => "java/lang/NegativeArraySizeException"
  | outOfMemory => "java/lang/OutOfMemoryError"
  | classCast => "java/lang/ClassCastException"
  | stackOverflow => "java/lang/StackOverflowError"
  | noSuchMethod => "java/lang/NoSuchMethodError"
  | noSuchField => "java/lang/NoSuchFieldError"
  | illegalMonitorState => "java/lang/IllegalMonitorStateException"
  | noClassDefFound => "java/lang/NoClassDefFoundError"

def ofName? (s : String) : Option Fault := all.find? (·.name == s)

end Fault

end ManagedCore

import ManagedCore.Class.Registry

/-!
# Core classes

The root class, strings, and the hierarchy of exceptions that running code can raise. They are
linked before anything else, so they hold the first class numbers.
-/

namespace ManagedCore

def messageDescriptor : String := "Ljava/lang/String;"

def messageSlot : Nat := 0

def throwableHierarchy : List (String × String) :=
  [ (throwableClass, "java/lang/Exception"),
    (throwableClass, "java/lang/Error"),
    ("java/lang/Exception", "java/lang/RuntimeException"),
    ("java/lang/RuntimeException", "java/lang/NullPointerException"),
    ("java/lang/RuntimeException", "java/lang/ArithmeticException"),
    ("java/lang/RuntimeException", "java/lang/ArrayStoreException"),
    ("java/lang/RuntimeException", "java/lang/NegativeArraySizeException"),
    ("java/lang/RuntimeException", "java/lang/ClassCastException"),
    ("java/lang/RuntimeException", "java/lang/IllegalMonitorStateException"),
    ("java/lang/RuntimeException", "java/lang/IndexOutOfBoundsException"),
    ("java/lang/IndexOutOfBoundsException", "java/lang/ArrayIndexOutOfBoundsException"),
    ("java/lang/Error", "java/lang/VirtualMachineError"),
    ("java/lang/VirtualMachineError", "java/lang/OutOfMemoryError"),
    ("java/lang/VirtualMachineError", "java/lang/StackOverflowError"),
    ("java/lang/Error", "java/lang/LinkageError"),
    ("java/lang/LinkageError", "java/lang/IncompatibleClassChangeError"),
    ("java/lang/IncompatibleClassChangeError", "java/lang/NoSuchMethodError"),
    ("java/lang/IncompatibleClassChangeError", "java/lang/NoSuchFieldError"),
    ("java/lang/LinkageError", "java/lang/NoClassDefFoundError") ]

def builtinMethod (name descriptor : String) (b : Builtin) : MethodDef :=
  .ofNative name descriptor Flag.isPublic (.builtin b)

def coreClasses : List ClassDef :=
  [ { name := objectClass
      superclass := none
      methods := [builtinMethod "<init>" "()V" .nothing,
        builtinMethod "hashCode" "()I" .identityHash] },
    { name := stringClass
      superclass := some objectClass
      flags := Flag.isPublic ||| Flag.isFinal
      methods := [builtinMethod "length" "()I" .stringLength] },
    { name := throwableClass
      superclass := some objectClass
      fields := [⟨"message", messageDescriptor, false⟩]
      methods := [builtinMethod "<init>" "()V" .nothing,
        builtinMethod "<init>" "(Ljava/lang/String;)V" .setMessage,
        builtinMethod "getMessage" "()Ljava/lang/String;" .getMessage] } ] ++
    throwableHierarchy.map fun (s, n) => { name := n, superclass := some s }

def Registry.core : Registry := coreClasses.foldl (fun r d => (r.define d).2) {}

end ManagedCore

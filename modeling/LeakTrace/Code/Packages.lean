/-!
# Classes that belong to the runtime

A class is a system class if its name starts with one of the package names below. The names end in
a dot, so `java` alone is no system package.
-/

namespace LeakTrace

def systemPackages : List String :=
  ["java.", "javax.", "jdk.", "sun.", "com.sun.", "android.", "androidx.", "com.android.",
    "com.google.", "org.omg.", "org.w3c.dom.", "org.xml."]

def isSystemClass (name : String) : Bool := systemPackages.any fun p => p.isPrefixOf name

end LeakTrace

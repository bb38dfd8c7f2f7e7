set_option autoImplicit false

namespace JvmEdit

structure Flags where
  bits : UInt16
  deriving DecidableEq, Repr, Inhabited

namespace Flags

def publicFlag : Flags := ⟨0x0001⟩
def privateFlag : Flags := ⟨0x0002⟩
def protectedFlag : Flags := ⟨0x0004⟩
def staticFlag : Flags := ⟨0x0008⟩
def finalFlag : Flags := ⟨0x0010⟩
def nativeFlag : Flags := ⟨0x0100⟩
def interfaceFlag : Flags := ⟨0x0200⟩
def abstractFlag : Flags := ⟨0x0400⟩
def enumFlag : Flags := ⟨0x4000⟩

def union (a b : Flags) : Flags := ⟨a.bits ||| b.bits⟩

def without (a b : Flags) : Flags := ⟨a.bits &&& ~~~b.bits⟩

def contains (a b : Flags) : Bool := a.bits &&& b.bits == b.bits

def set (a b : Flags) (value : Bool) : Flags := if value then a.union b else a.without b

-- The three flags of which at most one may be set.
def visibility : Flags := (publicFlag.union privateFlag).union protectedFlag

def isPublic (a : Flags) : Bool := a.contains publicFlag
def isPrivate (a : Flags) : Bool := a.contains privateFlag
def isStatic (a : Flags) : Bool := a.contains staticFlag
def isFinal (a : Flags) : Bool := a.contains finalFlag
def isNative (a : Flags) : Bool := a.contains nativeFlag
def isInterface (a : Flags) : Bool := a.contains interfaceFlag
def isAbstract (a : Flags) : Bool := a.contains abstractFlag
def isEnum (a : Flags) : Bool := a.contains enumFlag

def setPublic (a : Flags) : Flags := (a.without visibility).union publicFlag
def setPrivate (a : Flags) : Flags := (a.without visibility).union privateFlag
def setStatic (a : Flags) (value : Bool) : Flags := a.set staticFlag value
def setAbstract (a : Flags) (value : Bool) : Flags := a.set abstractFlag value

end Flags

end JvmEdit

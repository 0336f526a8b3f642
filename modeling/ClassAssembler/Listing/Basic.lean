import ClassAssembler.Access
import ClassAssembler.Code.Basic
import ClassAssembler.Code.Fault
import Std.Data.HashSet

/-!
# Listings

A class is handed over as a sequence of directives, and a `Listing` is what accepts them: it
checks their order and the use of labels, and keeps the finished classes.
-/

namespace ClassAssembler

structure ClassHeader where
  name : ClassName
  superClass : ClassName
  interfaces : List ClassName
  access : Access .type

structure FieldHeader where
  name : MemberName
  type : FieldType
  access : Access .field

structure MethodHeader where
  name : MemberName
  type : MethodType
  access : Access .method

inductive Directive where
  | openClass (header : ClassHeader)
  | field (header : FieldHeader)
  | openMethod (header : MethodHeader)
  | entry (entry : Entry)
  | exceptionRange (range : ExceptionRange)
  | closeMethod (maxLocals : UInt16)
  | closeClass

def Code.directives (code : Code) : List Directive :=
  code.entries.map .entry ++ code.ranges.map .exceptionRange

structure MethodListing where
  header : MethodHeader
  entries : List Entry
  ranges : List ExceptionRange
  maxLocals : UInt16

structure ClassListing where
  header : ClassHeader
  fields : Array FieldHeader
  methods : Array MethodListing

structure OpenMethod where
  header : MethodHeader
  entries : Array Entry
  ranges : Array ExceptionRange
  placed : Std.HashSet Label

structure Listing where
  classes : Array ClassListing
  openClass : Option ClassListing
  openMethod : Option OpenMethod

namespace OpenMethod

def start (header : MethodHeader) : OpenMethod :=
  { header, entries := #[], ranges := #[], placed := ∅ }

/-- The labels a method uses: its jump targets, then the labels of its ranges. -/
def used (method : OpenMethod) : List Label :=
  method.entries.toList.flatMap Entry.targets ++
    method.ranges.toList.flatMap ExceptionRange.labels

def close (method : OpenMethod) (maxLocals : UInt16) : MethodListing :=
  { header := method.header, entries := method.entries.toList, ranges := method.ranges.toList,
    maxLocals }

end OpenMethod

def Entry.call : Entry → WriterCall
  | .label _ => .placeLabel
  | .insn _ => .instruction
  | .branch _ => .branch

namespace Listing

def empty : Listing := { classes := #[], openClass := none, openMethod := none }

def currentClass (call : WriterCall) (listing : Listing) : Except CodeFault ClassListing :=
  match listing.openMethod, listing.openClass with
  | some _, _ => .error (.misplacedCall call .insideMethod)
  | none, none => .error (.misplacedCall call .outsideClass)
  | none, some current => .ok current

def onClass (call : WriterCall) (f : ClassListing → Listing → Listing) :
    EStateM CodeFault Listing Unit := fun listing =>
  match listing.currentClass call with
  | .error fault => .error fault listing
  | .ok current => .ok () (f current { listing with openClass := none })

def onMethod (call : WriterCall) (step : EStateM CodeFault OpenMethod Unit) :
    EStateM CodeFault Listing Unit := fun ⟨classes, openClass, openMethod⟩ =>
  match openMethod with
  | none => .error (.misplacedCall call .outsideMethod) ⟨classes, openClass, none⟩
  | some method =>
      match step method with
      | .error fault method => .error fault ⟨classes, openClass, some method⟩
      | .ok () method => .ok () ⟨classes, openClass, some method⟩

def writeEntry (entry : Entry) : EStateM CodeFault OpenMethod Unit := fun method =>
  match entry with
  | .label label =>
      if method.placed.contains label then
        .error (.duplicateLabel label) method
      else
        .ok () { method with
          placed := method.placed.insert label
          entries := method.entries.push entry }
  | _ => .ok () { method with entries := method.entries.push entry }

def writeRange (range : ExceptionRange) : EStateM CodeFault OpenMethod Unit :=
  modify fun method => { method with ranges := method.ranges.push range }

/-- Closes the open method, which is gone afterwards even if a label is missing. -/
def closeMethod (maxLocals : UInt16) : EStateM CodeFault Listing Unit :=
  fun ⟨classes, openClass, openMethod⟩ =>
    match openMethod with
    | none => .error (.misplacedCall .closeMethod .outsideMethod) ⟨classes, openClass, none⟩
    | some method =>
        let listing : Listing := ⟨classes, openClass, none⟩
        match method.used.find? (!method.placed.contains ·) with
        | some label => .error (.unplacedTarget label) listing
        | none =>
            onClass .closeMethod (fun current listing =>
              { listing with
                openClass := some
                  { current with methods := current.methods.push (method.close maxLocals) } })
              listing

def accept : Directive → EStateM CodeFault Listing Unit
  | .openClass header => fun listing =>
      match listing.openClass with
      | some _ => .error (.misplacedCall .openClass .insideClass) listing
      | none => .ok () { listing with openClass := some { header, fields := #[], methods := #[] } }
  | .field header =>
      onClass .field fun current listing =>
        { listing with openClass := some { current with fields := current.fields.push header } }
  | .openMethod header =>
      onClass .openMethod fun current listing =>
        { listing with openClass := some current, openMethod := some (.start header) }
  | .entry entry => onMethod entry.call (writeEntry entry)
  | .exceptionRange range => onMethod .exceptionRange (writeRange range)
  | .closeMethod maxLocals => closeMethod maxLocals
  | .closeClass =>
      onClass .closeClass fun current listing =>
        { listing with classes := listing.classes.push current }

def acceptAll (directives : List Directive) : EStateM CodeFault Listing Unit :=
  directives.forM accept

def class? (listing : Listing) (name : ClassName) : Option ClassListing :=
  listing.classes.find? (·.header.name == name)

end Listing

namespace ClassListing

def method? (listing : ClassListing) (name : String) : Option MethodListing :=
  listing.methods.find? (·.header.name.text == name)

def methodWithType? (listing : ClassListing) (name type : String) : Option MethodListing :=
  listing.methods.find? fun method =>
    method.header.name.text == name && Descriptor.render method.header.type == type

def field? (listing : ClassListing) (name : MemberName) : Option FieldHeader :=
  listing.fields.find? (·.name == name)

end ClassListing

namespace MethodListing

def labelIndex? (method : MethodListing) (label : Label) : Option Nat :=
  method.entries.findIdx? (· == .label label)

def instructions (method : MethodListing) : List Entry :=
  method.entries.filter (!·.isLabel)

end MethodListing
end ClassAssembler

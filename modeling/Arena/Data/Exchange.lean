/-
Exchange of values as data, and functions on such values applied to data. Data of another shape than
asked for is taken as the empty text, zero, or the empty list.
-/
import Arena.Data.Datum
import Arena.Fault

namespace Arena

class ToDatum (α : Type) where
  toDatum : α → Datum

class OfDatum (α : Type) where
  ofDatum : Datum → α

class Applicable (α : Type) where
  apply : α → List Datum → Outcome Datum

export ToDatum (toDatum)
export OfDatum (ofDatum)
export Applicable (apply)

namespace Datum

def elements : Datum → List Datum
  | list xs => xs
  | tuple xs => xs
  | set xs => xs
  | _ => []

def toSet : Datum → Datum
  | list xs => set xs.eraseDups
  | tuple xs => set xs.eraseDups
  | d => d

def item (d : Datum) (i : Nat) : Datum := d.elements.getD i null

end Datum

/-! ## Giving data -/

section

variable {α β γ : Type}

instance : ToDatum Datum := ⟨id⟩
instance : ToDatum String := ⟨.text⟩
instance : ToDatum Int := ⟨.int⟩
instance : ToDatum Nat := ⟨fun n => .int n⟩
instance : ToDatum Bool := ⟨.bool⟩
instance : ToDatum Unit := ⟨fun _ => .null⟩
instance [ToDatum α] : ToDatum (List α) := ⟨fun xs => .list (xs.map toDatum)⟩
instance [ToDatum α] : ToDatum (Option α) := ⟨fun x => (x.map toDatum).getD .null⟩
instance [ToDatum α] [ToDatum β] : ToDatum (α × β) :=
  ⟨fun x => .tuple [toDatum x.1, toDatum x.2]⟩
instance (priority := high) [ToDatum α] [ToDatum β] [ToDatum γ] : ToDatum (α × β × γ) :=
  ⟨fun x => .tuple [toDatum x.1, toDatum x.2.1, toDatum x.2.2]⟩

def tableDatum [ToDatum α] (entries : List (String × α)) : Datum :=
  .dict (entries.map fun (k, v) => (.text k, toDatum v))

/-! ## Taking data -/

instance : OfDatum Datum := ⟨id⟩
instance : OfDatum String := ⟨fun | .text s => s | _ => ""⟩
instance : OfDatum Int := ⟨fun | .int n => n | .bool true => 1 | _ => 0⟩
instance : OfDatum Nat := ⟨fun | .int n => n.toNat | _ => 0⟩
instance : OfDatum Bool := ⟨fun | .bool b => b | .int n => n == 1 | _ => false⟩
instance [OfDatum α] : OfDatum (List α) := ⟨fun d => d.elements.map ofDatum⟩
instance [OfDatum α] : OfDatum (Option α) := ⟨fun | .null => none | d => some (ofDatum d)⟩
instance [OfDatum α] [OfDatum β] : OfDatum (α × β) :=
  ⟨fun d => (ofDatum (d.item 0), ofDatum (d.item 1))⟩

structure Entries (α : Type) where
  list : List (String × α)

instance [ToDatum α] : ToDatum (Entries α) := ⟨fun t => tableDatum t.list⟩
instance [OfDatum α] : OfDatum (Entries α) :=
  ⟨fun | .dict es => ⟨es.map fun (k, v) => (ofDatum k, ofDatum v)⟩ | _ => ⟨[]⟩⟩

/-! ## Applying functions -/

instance (priority := low) [ToDatum α] : Applicable α := ⟨fun x _ => .ok (toDatum x)⟩
instance [ToDatum α] : Applicable (Outcome α) := ⟨fun x _ => x.map toDatum⟩
instance [OfDatum α] [Applicable β] : Applicable (α → β) :=
  ⟨fun f args => apply (f (ofDatum (args.headD .null))) args.tail⟩

end

end Arena

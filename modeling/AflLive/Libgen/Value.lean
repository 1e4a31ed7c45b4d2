import AflLive.Libgen.Serialize

/-! Argument values apart from where they lie in memory: scalars, aggregates and
sequences behind pointers. The record of a value is its encoding. -/
namespace AflLive.Libgen
open Bytes Control

inductive Value where
  | scalar (bytes : List UInt8)
  | parts (items : List Value)
  | sequence (items : List Value)

mutual

/-- Scalars as they lie in memory, aggregates part by part, sequences behind a
32-bit count. -/
def Value.encode : Value → List UInt8
  | .scalar bytes => bytes
  | .parts items => Value.encodeAll items
  | .sequence items => number 4 items.length ++ Value.encodeAll items

def Value.encodeAll : List Value → List UInt8
  | [] => []
  | item :: rest => item.encode ++ Value.encodeAll rest

end

theorem Value.encodeAll_append (first second : List Value) :
    encodeAll (first ++ second) = encodeAll first ++ encodeAll second := by
  induction first with
  | nil => rfl
  | cons item rest ih => simp only [List.cons_append, encodeAll, ih, List.append_assoc]

theorem Value.encodeAll_take {items : List Value} {item : Value} {i : Nat} (here : items[i]? = some item) :
    encodeAll (items.take (i + 1)) = encodeAll (items.take i) ++ item.encode := by
  rw [List.take_add_one, here, encodeAll_append]
  simp [encodeAll]

theorem Value.encodeAll_split {items : List Value} {item : Value} {i : Nat} (here : items[i]? = some item) :
    encodeAll items = encodeAll (items.take i) ++ (item.encode ++ encodeAll (items.drop (i + 1))) := by
  rw [← List.append_assoc, ← encodeAll_take here, ← encodeAll_append, List.take_append_drop]

/-- Memory holds a value at an address, with the lengths the recorder assumes.
`place` is the address the value will have when it is rebuilt, counted from the
start of its block. A pointer must be even in both places, since bit 0 is a tag.
`limit` bounds the byte offsets of the elements behind a pointer. `depth` bounds
the nesting, so cyclic data holds no value. -/
inductive Holds (structs : Nat → StructType) (h : Heap) (limit : Nat) :
    Nat → List Constraint → Ty → Nat → Nat → Value → Prop
  | integer {depth : Nat} {cs : List Constraint} {bitWidth addr place : Nat}
      (width : bitWidth = 8 ∨ bitWidth = 16 ∨ bitWidth = 32)
      (readable : h.readable addr (bitWidth / 8) = true) :
      Holds structs h limit (depth + 1) cs (.integer bitWidth) addr place
        (.scalar (h.bytes.peek addr (bitWidth / 8)))
  | floating {depth : Nat} {cs : List Constraint} {addr place : Nat} (readable : h.readable addr 4 = true) :
      Holds structs h limit (depth + 1) cs (.floating 32) addr place (.scalar (h.bytes.peek addr 4))
  | struct {depth : Nat} {cs : List Constraint} {name addr place : Nat} {items : List Value}
      (count : items.length = (structs name).fields.length)
      (each : ∀ (i : Nat) field item, (structs name).fields[i]? = some field → items[i]? = some item →
        Holds structs h limit depth [] field.1 (addr + field.2) (place + field.2) item) :
      Holds structs h limit (depth + 1) cs (.struct name) addr place (.parts items)
  | array {depth : Nat} {cs : List Constraint} {elem : Ty} {numElems size addr place : Nat} {items : List Value}
      (known : getSize structs elem = .ok size) (count : items.length = numElems)
      (each : ∀ (i : Nat) item, items[i]? = some item →
        Holds structs h limit depth [] elem (addr + i * size) (place + i * size) item) :
      Holds structs h limit (depth + 1) cs (.array elem numElems) addr place (.parts items)
  | pointer {depth : Nat} {cs : List Constraint} {pointee : Ty} {size addr place : Nat} {items : List Value}
      (even : addr % 2 = 0) (canonical : addr < 2 ^ 63) (aligned : place % 2 = 0) (readable : h.readable addr 8 = true)
      (known : getSize structs pointee = .ok size)
      (length : recordedLength h pointee addr false cs = .ok items.length)
      (short : ∀ i < items.length, i * size < limit)
      (each : ∀ (i : Nat) item, items[i]? = some item →
        Holds structs h limit depth [] pointee (value (h.bytes.peek addr 8) + i * size) (i * size) item) :
      Holds structs h limit (depth + 1) cs (.pointer pointee) addr place (.sequence items)

theorem Holds.sized {structs : Nat → StructType} {h : Heap} {limit depth addr place : Nat} {cs : List Constraint}
    {type : Ty} {v : Value} (holds : Holds structs h limit depth cs type addr place v) :
    ∃ size, getSize structs type = .ok size := by
  cases holds with
  | integer | floating | struct | pointer => exact ⟨_, rfl⟩
  | array known => exact ⟨_, by simp only [getSize, known, ok_bind]; rfl⟩

/-- A record that grew by the encoding of some items. -/
def Recording.Grew (r s : Recording) (bytes : List UInt8) : Prop := r.Appends s bytes ∧ s.failed = r.failed

theorem Recording.Grew.trans {r s t : Recording} (first : r.Grew s bytes) (second : s.Grew t more) :
    r.Grew t (bytes ++ more) :=
  ⟨first.1.trans second.1, second.2.trans first.2⟩

theorem Recording.Grew.emit (r : Recording) (bytes : List UInt8) : r.Grew (r.emit bytes) bytes :=
  ⟨.emit r bytes, rfl⟩

section Serializes
variable {P : Platform} {info : TypeInfo} {h : Heap} {limit : Nat}

theorem serializeScalar_grew {addr size : Nat} (readable : h.readable addr size = true) (r : Recording) :
    Ensures (fun _ => False) (fun s => r.Grew s (h.bytes.peek addr size)) (serializeScalar h addr size r) := by
  unfold serializeScalar
  rw [Heap.load_eq_ok.mpr ⟨readable, rfl⟩]
  exact .emit r _

/-- Recording a value writes its encoding, whatever room its elements take. -/
theorem Holds.serializes {depth fuel : Nat} {cs : List Constraint} {type : Ty} {addr place : Nat} {v : Value}
    (holds : Holds info.structs h limit depth cs type addr place v) (sized : Sized info.structs type)
    (enough : depth ≤ fuel) {r : Recording} (small : r.offset < 2 ^ 32) :
    Ensures (fun _ => False) (fun s => r.Grew s v.encode)
      (serializeToBuffer P info.structs h fuel type addr cs r) := by
  induction holds generalizing fuel r with
  | integer width readable =>
    cases fuel with
    | zero => omega
    | succ fuel => exact serializeScalar_grew readable r
  | floating readable =>
    cases fuel with
    | zero => omega
    | succ fuel => exact serializeScalar_grew readable r
  | @struct depth cs name addr place items count each ih =>
    cases fuel with
    | zero => omega
    | succ fuel =>
      have loop : Ensures (fun _ => False) (fun s => r.Grew s (Value.encodeAll
          (items.take (info.structs name).fields.length)))
          (serializeToBuffer P info.structs h (fuel + 1) (.struct name) addr cs r) := by
        refine foldlM_ensures (I := fun done s => r.Grew s (Value.encodeAll (items.take done.length))) _
          ⟨.refl small, rfl⟩ ?_
        intro before field after split s sofar
        have here : (info.structs name).fields[before.length]? = some field := by simp [split]
        obtain ⟨item, chosen⟩ : ∃ item, items[before.length]? = some item :=
          ⟨_, List.getElem?_eq_getElem (by rw [count, split]; simp)⟩
        have next := ih before.length field item here chosen
          (info.fields_sized name field (List.mem_of_getElem? here)) (show depth ≤ fuel by omega) sofar.1.small
        refine next.weaken fun t grown => ?_
        rw [List.length_append, List.length_singleton, Value.encodeAll_take chosen]
        exact sofar.trans grown
      rwa [← count, List.take_length] at loop
  | @array depth cs elem numElems size addr place items known count each ih =>
    subst count
    cases fuel with
    | zero => omega
    | succ fuel =>
      have loop : Ensures (fun _ => False) (fun s => r.Grew s (Value.encodeAll (items.take items.length)))
          (serializeToBuffer P info.structs h (fuel + 1) (.array elem items.length) addr cs r) := by
        refine forTo_ensures (I := fun i s => r.Grew s (Value.encodeAll (items.take i))) items.length
          ⟨.refl small, rfl⟩ ?_
        intro i inside s sofar
        obtain ⟨item, chosen⟩ : ∃ item, items[i]? = some item :=
          ⟨_, List.getElem?_eq_getElem (by omega)⟩
        have below := sized.2 size known
        have unwrapped : i * size % 2 ^ 32 = i * size := Nat.mod_eq_of_lt (by nlinarith)
        have next := ih i item chosen sized.1 (show depth ≤ fuel by omega) sofar.1.small
        simp only [known, ok_bind, unwrapped]
        refine next.weaken fun t grown => ?_
        rw [Value.encodeAll_take chosen]
        exact sofar.trans grown
      rwa [List.take_length] at loop
  | @pointer depth cs pointee size addr place items even canonical aligned readable known length short each ih =>
    cases fuel with
    | zero => omega
    | succ fuel =>
      have slot : untag addr = addr := by rw [untag_eq canonical]; omega
      have noDeref : isDeref addr = false := by simp [isDeref, even]
      have stored : h.load addr 8 = .ok (h.bytes.peek addr 8) := Heap.load_eq_ok.mpr ⟨readable, rfl⟩
      simp only [serializeToBuffer, isFile_eq_false canonical, slot, noDeref, length, known, stored, ok_bind,
        Bool.false_eq_true, if_false]
      have loop : Ensures (fun _ => False) (fun s => r.Grew s (number 4 items.length ++
          Value.encodeAll (items.take items.length)))
          (forTo (fun i r => serializeToBuffer P info.structs h fuel pointee
            (value (h.bytes.peek addr 8) + i * size) [] r) items.length (r.emit (number 4 items.length))) := by
        refine forTo_ensures (I := fun i s => r.Grew s (number 4 items.length ++
          Value.encodeAll (items.take i))) items.length ?_ ?_
        · simpa [Value.encodeAll] using Recording.Grew.emit r (number 4 items.length)
        · intro i inside s sofar
          obtain ⟨item, chosen⟩ : ∃ item, items[i]? = some item := ⟨_, List.getElem?_eq_getElem inside⟩
          have next := ih i item chosen sized (show depth ≤ fuel by omega) sofar.1.small
          refine next.weaken fun t grown => ?_
          rw [Value.encodeAll_take chosen, ← List.append_assoc]
          exact sofar.trans grown
      rwa [List.take_length] at loop

end Serializes
end AflLive.Libgen

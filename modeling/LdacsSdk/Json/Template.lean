import LdacsSdk.Core.Buffer
import LdacsSdk.Library.BlockMemory

/-!
# JSON templates

`marshel_json` and `unmarshel_json` walk a template over a packed struct in memory. A string is a
pointer to a `buffer_t` in the struct, a nested object a pointer to another struct. A read or a
write outside a block, of bytes without a value or through a pointer to something else has no
result. `malloc` is taken to succeed.
-/
namespace LdacsSdk

open Library

/-- The entries of a `json_tmpl_desc_t` up to the one of type `cJSON_Invalid`; a nested object
comes with the size and the entries of its own descriptor. -/
inductive Tmpl where
  | invalid
  | number (size : ℕ) (key : String) (rest : Tmpl)
  | string (size : ℕ) (key : String) (rest : Tmpl)
  | object (size : ℕ) (key : String) (descSize : ℕ) (desc rest : Tmpl)
  deriving DecidableEq, Repr

/-- A `cJSON` node. -/
inductive CJson where
  | number (n : ℕ)
  | string (s : List UInt8)
  | object (items : List (String × CJson))

/-- What `cJSON` compares keys by. -/
def foldKey (key : String) : List Char := key.toList.map Char.toLower

/-- `cJSON_GetObjectItem`. -/
def getObjectItem (root : CJson) (key : String) : Option CJson :=
  match root with
  | .object items => (items.find? fun x => foldKey x.1 = foldKey key).map Prod.snd
  | _ => none

/-- The C string at the start of a block; a block without a NUL is read past its end. -/
def cString (block : List UInt8) : Option (List UInt8) :=
  if 0 ∈ block then some (block.takeWhile (· ≠ 0)) else none

/-- The number at an offset, by the size of the field. -/
def loadNumber (mem : Memory Buffer) (p ptr size : ℕ) : Option ℕ :=
  if size ∈ [1, 2, 4, 8] then mem.loadNat p ptr size else some 0

/-- The number is stored by the size of the field. -/
def storeNumber (mem : Memory Buffer) (p ptr size n : ℕ) : Option (Memory Buffer) :=
  if size ∈ [1, 2, 4, 8] then mem.store p ptr (leBytes size n) else some mem

/-- The buffer that the pointer at an offset points to. -/
def readBuffer (mem : Memory Buffer) (p ptr : ℕ) : Option Buffer :=
  (mem.loadPtr p ptr).bind mem.whole?

/-- The loop of `marshel_json` from the field at `ptr` of the struct on; `double` is what becomes of
a number in `cJSON`. Nothing is added for a string that is NULL. -/
def marshelFields (double : ℕ → ℕ) (mem : Memory Buffer) :
    Tmpl → ℕ → ℕ → List (String × CJson) → Option (List (String × CJson))
  | .invalid, _, _, initObj => some initObj
  | .number size key rest, p, ptr, initObj =>
    (loadNumber mem p ptr size).bind fun n =>
      marshelFields double mem rest p (ptr + size) (initObj ++ [(key, .number (double n))])
  | .string size key rest, p, ptr, initObj =>
    (readBuffer mem p ptr).bind fun buf =>
      match buf.ptr with
      | none => marshelFields double mem rest p (ptr + size) initObj
      | some block => (cString block).bind fun s =>
        marshelFields double mem rest p (ptr + size) (initObj ++ [(key, .string s)])
  | .object size key _ desc rest, p, ptr, initObj =>
    (mem.loadPtr p ptr).bind fun child =>
      (marshelFields double mem desc child 0 []).bind fun obj =>
        marshelFields double mem rest p (ptr + size) (initObj ++ [(key, .object obj)])

/-- `marshel_json`. -/
def marshelJson (double : ℕ → ℕ) (mem : Memory Buffer) (structPtr : ℕ) (tmpl : Tmpl) :
    Option CJson :=
  (marshelFields double mem tmpl structPtr 0 []).map .object

/-- `cJSON_GetNumberValue`; that of another node is no number. -/
def CJson.number? : CJson → Option ℕ
  | number n => some n
  | _ => none

/-- `cJSON_GetStringValue`; that of another node is NULL. -/
def CJson.string? : CJson → Option (List UInt8)
  | string s => some s
  | _ => none

/-- The buffer of a string field and the memory after it was made where it was missing. -/
def fieldBuffer (mem : Memory Buffer) (p ptr : ℕ) : Option (ℕ × Memory Buffer) :=
  (mem.loadPtr p ptr).bind fun bufP =>
    if bufP = 0 then
      ((mem.alloc (.whole initBufferUnptr)).store p ptr (ptrBytes mem.next)).map (mem.next, ·)
    else some (bufP, mem)

/-- `CLONE_TO_CHUNK` of a string into the buffer. -/
def cloneString (mem : Memory Buffer) (bufP : ℕ) (s : List UInt8) : Option (Memory Buffer) :=
  (mem.whole? bufP).map fun _ => mem.set bufP (.whole (cloneToChunk s))

/-- A block for the child struct is allocated and its address stored in the struct and in the local
variable `p`, which is a block of its own. The result points to the variable. -/
def openObject (mem : Memory Buffer) (p ptr descSize : ℕ) : Option (ℕ × Memory Buffer) :=
  let block := mem.next
  ((mem.alloc (.raw (.fresh descSize))).store p ptr (ptrBytes block)).bind fun mem =>
    ((mem.alloc (.raw (.fresh 8))).store mem.next 0 (ptrBytes block)).map (mem.next, ·)

/-- The loop of `unmarshel_json` from the field at `ptr` of the struct on. The child object is
unmarshelled to the address of the local variable, `&p`. -/
def unmarshelFields : Tmpl → CJson → ℕ → ℕ → Memory Buffer → Option (Memory Buffer)
  | .invalid, _, _, _, mem => some mem
  | .number size key rest, root, p, ptr, mem =>
    match getObjectItem root key with
    | none => unmarshelFields rest root p (ptr + size) mem
    | some child => child.number?.bind fun n =>
      (storeNumber mem p ptr size n).bind fun mem => unmarshelFields rest root p (ptr + size) mem
  | .string size key rest, root, p, ptr, mem =>
    match getObjectItem root key with
    | none => unmarshelFields rest root p (ptr + size) mem
    | some child => (fieldBuffer mem p ptr).bind fun (bufP, mem) =>
      child.string?.bind fun str => (cloneString mem bufP str).bind fun mem =>
        unmarshelFields rest root p (ptr + size) mem
  | .object size key descSize desc rest, root, p, ptr, mem =>
    match getObjectItem root key with
    | none => unmarshelFields rest root p (ptr + size) mem
    | some child => (openObject mem p ptr descSize).bind fun (local', mem) =>
      (unmarshelFields desc child local' 0 mem).bind fun mem =>
        unmarshelFields rest root p (ptr + size) mem

/-- `unmarshel_json`. -/
def unmarshelJson (root : CJson) (structPtr : ℕ) (tmpl : Tmpl) (mem : Memory Buffer) :
    Option (Memory Buffer) :=
  unmarshelFields tmpl root structPtr 0 mem

/-- The values of a struct of a template's shape, with its strings as `σ`. -/
inductive JsonFields (σ : Type*) where
  | nil
  | number (n : ℕ) (rest : JsonFields σ)
  | string (s : σ) (rest : JsonFields σ)
  | object (fields rest : JsonFields σ)
  deriving DecidableEq, Repr

/-- The same values with other strings. -/
def JsonFields.map {σ τ : Type*} (f : σ → τ) : JsonFields σ → JsonFields τ
  | nil => nil
  | number n rest => number n (rest.map f)
  | string s rest => string (f s) (rest.map f)
  | object fields rest => object (fields.map f) (rest.map f)

/-- The values of the struct at `p` from the field at `ptr` on, where it has the shape. -/
def readStruct (mem : Memory Buffer) : Tmpl → ℕ → ℕ → Option (JsonFields Buffer)
  | .invalid, _, _ => some .nil
  | .number size _ rest, p, ptr =>
    (loadNumber mem p ptr size).bind fun n =>
      (readStruct mem rest p (ptr + size)).map (.number n)
  | .string size _ rest, p, ptr =>
    (readBuffer mem p ptr).bind fun buf =>
      (readStruct mem rest p (ptr + size)).map (.string buf)
  | .object size _ _ desc rest, p, ptr =>
    (mem.loadPtr p ptr).bind fun child =>
      (readStruct mem desc child 0).bind fun fields =>
        (readStruct mem rest p (ptr + size)).map (.object fields)

/-- The integers and strings of the struct at `dst` after `unmarshel_json` of what `marshel_json`
makes of the struct at `src`. -/
def jsonRoundTrip (double : ℕ → ℕ) (mem : Memory Buffer) (src : ℕ) (tmpl : Tmpl)
    (mem' : Memory Buffer) (dst : ℕ) : Option (JsonFields (List UInt8)) :=
  (marshelJson double mem src tmpl).bind fun obj =>
    (unmarshelJson obj dst tmpl mem').bind fun mem' =>
      (readStruct mem' tmpl dst 0).map fun v => v.map Buffer.content

namespace Tmpl

/-- The size of the packed struct. -/
def width : Tmpl → ℕ
  | invalid => 0
  | number size _ rest | string size _ rest | object size _ _ _ rest => size + rest.width

/-- The keys as `cJSON` compares them. -/
def keys : Tmpl → List (List Char)
  | invalid => []
  | number _ key rest | string _ key rest | object _ key _ _ rest => foldKey key :: rest.keys

/-- Integers of size 1, 2 or 4, strings and objects as pointers, and distinct keys, in the nested
descriptors too. -/
def Shape : Tmpl → Prop
  | invalid => True
  | number size key rest => (size = 1 ∨ size = 2 ∨ size = 4) ∧ foldKey key ∉ rest.keys ∧ rest.Shape
  | string size key rest => 8 ≤ size ∧ foldKey key ∉ rest.keys ∧ rest.Shape
  | object size key _ desc rest =>
    8 ≤ size ∧ foldKey key ∉ rest.keys ∧ desc.Shape ∧ rest.Shape

/-- No nested object has a field. -/
def Flat : Tmpl → Prop
  | invalid => True
  | number _ _ rest | string _ _ rest => rest.Flat
  | object _ _ _ desc rest => desc = invalid ∧ rest.Flat

end Tmpl

/-- The buffer's bytes are a C string: it has a block, and a NUL stands behind the bytes in use. -/
def Buffer.Terminated (b : Buffer) : Prop := ∃ block, b.ptr = some block ∧ block[b.len]? = some 0

namespace JsonFields

/-- Every string of the struct and its nested structs has the property. -/
def AllStrings {σ : Type*} (p : σ → Prop) : JsonFields σ → Prop
  | nil => True
  | number _ rest => rest.AllStrings p
  | string s rest => p s ∧ rest.AllStrings p
  | object fields rest => fields.AllStrings p ∧ rest.AllStrings p

end JsonFields

end LdacsSdk

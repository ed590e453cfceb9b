import LdacsSdk.Json.Template

/-!
# Round trip of a JSON template

`marshel_json` makes a tree with one item for each number, each object and each string that is not
NULL. `unmarshel_json` fills numbers and strings from it, but the fields of a nested object go to
the local variable that holds the address of the new block: the block keeps no value. So the round
trip works for templates whose nested objects are empty.
-/
namespace LdacsSdk

open Library

/-- The items `marshel_json` makes of the values of a struct. -/
def itemsOf (double : ℕ → ℕ) : Tmpl → JsonFields Buffer → Option (List (String × CJson))
  | .invalid, .nil => some []
  | .number _ key rest, .number n vs =>
    (itemsOf double rest vs).map ((key, .number (double n)) :: ·)
  | .string _ key rest, .string buf vs =>
    match buf.ptr with
    | none => itemsOf double rest vs
    | some block =>
      (cString block).bind fun s => (itemsOf double rest vs).map ((key, .string s) :: ·)
  | .object _ key _ desc rest, .object fields vs =>
    (itemsOf double desc fields).bind fun obj =>
      (itemsOf double rest vs).map ((key, .object obj) :: ·)
  | _, _ => none

/-- A `cJSON` object has for each field what `marshel_json` made of it. -/
def Answers (root : CJson) : Tmpl → JsonFields Buffer → Prop
  | .invalid, .nil => True
  | .number size key rest, .number n vs =>
    (getObjectItem root key = some (.number n) ∧ n < 256 ^ size) ∧ Answers root rest vs
  | .string _ key rest, .string buf vs =>
    (buf.ptr = none ∧ getObjectItem root key = none ∨
      ∃ block s, buf.ptr = some block ∧ cString block = some s ∧
        getObjectItem root key = some (.string s)) ∧ Answers root rest vs
  | .object _ key _ desc rest, .object fields vs =>
    ((∃ items, getObjectItem root key = some (.object items)) ∧
      (desc = .invalid → fields = .nil)) ∧ Answers root rest vs
  | _, _ => False

section Writing

variable {double : ℕ → ℕ} {mem : Memory Buffer} {t : Tmpl} {v : JsonFields Buffer} {p ptr : ℕ}

/-- The walk along the struct makes the tree of its values. -/
theorem marshelFields_eq (h : readStruct mem t p ptr = some v) (initObj : List (String × CJson)) :
    marshelFields double mem t p ptr initObj = (itemsOf double t v).map (initObj ++ ·) := by
  induction t generalizing p ptr v initObj with
  | invalid =>
    cases h
    simp [marshelFields, itemsOf]
  | number size key rest ih =>
    obtain ⟨n, hn, hrest⟩ := Option.bind_eq_some_iff.mp h
    obtain ⟨vs, hvs, rfl⟩ := Option.map_eq_some_iff.mp hrest
    rw [marshelFields, hn, Option.bind_some, ih hvs, itemsOf, Option.map_map]
    congr 1
    funext items
    simp
  | string size key rest ih =>
    obtain ⟨buf, hbuf, hrest⟩ := Option.bind_eq_some_iff.mp h
    obtain ⟨vs, hvs, rfl⟩ := Option.map_eq_some_iff.mp hrest
    rw [marshelFields, hbuf, Option.bind_some, itemsOf]
    cases buf.ptr with
    | none => exact ih hvs initObj
    | some block =>
      simp only [ih hvs]
      cases cString block with
      | none => rfl
      | some s =>
        simp only [Option.bind_some, Option.map_map]
        congr 1
        funext items
        simp
  | object size key descSize desc rest ihdesc ih =>
    obtain ⟨child, hchild, hfields⟩ := Option.bind_eq_some_iff.mp h
    obtain ⟨fields, hdesc, hrest⟩ := Option.bind_eq_some_iff.mp hfields
    obtain ⟨vs, hvs, rfl⟩ := Option.map_eq_some_iff.mp hrest
    rw [marshelFields, hchild, Option.bind_some, ihdesc hdesc, itemsOf]
    simp only [ih hvs]
    cases itemsOf double desc fields with
    | none => rfl
    | some obj =>
      simp only [Option.map_some, Option.bind_some, Option.map_map, List.nil_append]
      congr 1
      funext items
      simp

theorem itemsOf_keys {items : List (String × CJson)} (h : itemsOf double t v = some items)
    {x : String × CJson} (hx : x ∈ items) : foldKey x.1 ∈ t.keys := by
  induction t generalizing v items with
  | invalid =>
    cases v <;> simp [itemsOf] at h
    subst h
    simp at hx
  | number size key rest ih =>
    cases v with
    | number n vs =>
      obtain ⟨tail, htail, rfl⟩ := Option.map_eq_some_iff.mp h
      rcases List.mem_cons.mp hx with rfl | hx
      · simp [Tmpl.keys]
      · exact List.mem_cons_of_mem _ (ih htail hx)
    | _ => simp [itemsOf] at h
  | string size key rest ih =>
    cases v with
    | string buf vs =>
      rw [itemsOf] at h
      cases hptr : buf.ptr with
      | none =>
        rw [hptr] at h
        exact List.mem_cons_of_mem _ (ih h hx)
      | some block =>
        rw [hptr] at h
        obtain ⟨s, -, hitems⟩ := Option.bind_eq_some_iff.mp h
        obtain ⟨tail, htail, rfl⟩ := Option.map_eq_some_iff.mp hitems
        rcases List.mem_cons.mp hx with rfl | hx
        · simp [Tmpl.keys]
        · exact List.mem_cons_of_mem _ (ih htail hx)
    | _ => simp [itemsOf] at h
  | object size key descSize desc rest _ ih =>
    cases v with
    | object fields vs =>
      obtain ⟨obj, -, hitems⟩ := Option.bind_eq_some_iff.mp h
      obtain ⟨tail, htail, rfl⟩ := Option.map_eq_some_iff.mp hitems
      rcases List.mem_cons.mp hx with rfl | hx
      · simp [Tmpl.keys]
      · exact List.mem_cons_of_mem _ (ih htail hx)
    | _ => simp [itemsOf] at h

/-- An item is found behind items with other keys. -/
theorem getObjectItem_append {pre items : List (String × CJson)} {key : String}
    (hpre : ∀ x ∈ pre, foldKey x.1 ≠ foldKey key) :
    getObjectItem (.object (pre ++ items)) key = getObjectItem (.object items) key := by
  have hnone : pre.find? (fun x => foldKey x.1 = foldKey key) = none := by
    simpa [List.find?_eq_none] using hpre
  simp only [getObjectItem]
  rw [List.find?_append, hnone, Option.none_or]

theorem getObjectItem_head (key : String) (child : CJson) (items : List (String × CJson)) :
    getObjectItem (.object ((key, child) :: items)) key = some child := by
  simp [getObjectItem]

theorem getObjectItem_none {items : List (String × CJson)} {key : String}
    (h : ∀ x ∈ items, foldKey x.1 ≠ foldKey key) : getObjectItem (.object items) key = none := by
  have hpre : getObjectItem (.object (items ++ [])) key = getObjectItem (.object []) key :=
    getObjectItem_append h
  rw [List.append_nil] at hpre
  rw [hpre]
  rfl

theorem loadNumber_lt {n size : ℕ} (hsize : size = 1 ∨ size = 2 ∨ size = 4)
    (h : loadNumber mem p ptr size = some n) : n < 256 ^ size := by
  have hin : size ∈ [1, 2, 4, 8] := by
    rcases hsize with rfl | rfl | rfl <;> decide
  rw [loadNumber, if_pos hin] at h
  exact Memory.loadNat_lt h

/-- With a field's item behind them, the items still have other keys than the fields to come. -/
theorem other_keys {pre : List (String × CJson)} {key : String} {child : CJson}
    {keys : List (List Char)} (hpre : ∀ x ∈ pre, foldKey x.1 ∉ foldKey key :: keys)
    (hkey : foldKey key ∉ keys) : ∀ x ∈ pre ++ [(key, child)], foldKey x.1 ∉ keys := by
  intro x hx
  rcases List.mem_append.mp hx with hx | hx
  · exact fun hmem => hpre x hx (List.mem_cons_of_mem _ hmem)
  · rwa [List.mem_singleton.mp hx]

/-- The items of a template with distinct keys answer all of its fields, behind other items too. -/
theorem answers_of_items (hdouble : ∀ n < 2 ^ 32, double n = n) (hshape : t.Shape)
    (hread : readStruct mem t p ptr = some v) (pre : List (String × CJson))
    {items : List (String × CJson)} (h : itemsOf double t v = some items)
    (hpre : ∀ x ∈ pre, foldKey x.1 ∉ t.keys) :
    Answers (.object (pre ++ items)) t v := by
  induction t generalizing p ptr v pre items with
  | invalid =>
    cases hread
    trivial
  | number size key rest ih =>
    obtain ⟨hsize, hkey, hrest⟩ := hshape
    obtain ⟨n, hn, htail⟩ := Option.bind_eq_some_iff.mp hread
    obtain ⟨vs, hvs, rfl⟩ := Option.map_eq_some_iff.mp htail
    obtain ⟨tail, hitems, rfl⟩ := Option.map_eq_some_iff.mp h
    have hlt := loadNumber_lt hsize hn
    have h32 : n < 2 ^ 32 := by
      rcases hsize with rfl | rfl | rfl <;> omega
    refine ⟨⟨?_, hlt⟩, ?_⟩
    · rw [getObjectItem_append fun x hx heq => hpre x hx (by simp [Tmpl.keys, heq]),
        getObjectItem_head, hdouble n h32]
    · rw [List.append_cons]
      exact ih hrest hvs _ hitems (other_keys hpre hkey)
  | string size key rest ih =>
    obtain ⟨hsize, hkey, hrest⟩ := hshape
    obtain ⟨buf, hbuf, htail⟩ := Option.bind_eq_some_iff.mp hread
    obtain ⟨vs, hvs, rfl⟩ := Option.map_eq_some_iff.mp htail
    rw [itemsOf] at h
    have hskip : ∀ x ∈ pre, foldKey x.1 ≠ foldKey key := fun x hx heq =>
      hpre x hx (by simp [Tmpl.keys, heq])
    cases hptr : buf.ptr with
    | none =>
      rw [hptr] at h
      refine ⟨.inl ⟨hptr, ?_⟩, ih hrest hvs pre h fun x hx hmem =>
        hpre x hx (List.mem_cons_of_mem _ hmem)⟩
      rw [getObjectItem_append hskip]
      exact getObjectItem_none fun x hx heq => hkey (heq ▸ itemsOf_keys h hx)
    | some block =>
      rw [hptr] at h
      obtain ⟨s, hs, hcons⟩ := Option.bind_eq_some_iff.mp h
      obtain ⟨tail, hitems, rfl⟩ := Option.map_eq_some_iff.mp hcons
      refine ⟨.inr ⟨block, s, hptr, hs, ?_⟩, ?_⟩
      · rw [getObjectItem_append hskip, getObjectItem_head]
      · rw [List.append_cons]
        exact ih hrest hvs _ hitems (other_keys hpre hkey)
  | object size key descSize desc rest _ ih =>
    obtain ⟨hsize, hkey, -, hrest⟩ := hshape
    obtain ⟨child, -, hfields⟩ := Option.bind_eq_some_iff.mp hread
    obtain ⟨fields, hdesc, htail⟩ := Option.bind_eq_some_iff.mp hfields
    obtain ⟨vs, hvs, rfl⟩ := Option.map_eq_some_iff.mp htail
    obtain ⟨obj, -, hcons⟩ := Option.bind_eq_some_iff.mp h
    obtain ⟨tail, hitems, rfl⟩ := Option.map_eq_some_iff.mp hcons
    refine ⟨⟨⟨obj, ?_⟩, ?_⟩, ?_⟩
    · rw [getObjectItem_append fun x hx heq => hpre x hx (by simp [Tmpl.keys, heq]),
        getObjectItem_head]
    · rintro rfl
      cases hdesc
      rfl
    · rw [List.append_cons]
      exact ih hrest hvs _ hitems (other_keys hpre hkey)

end Writing

section Filling

variable {mem mem' mem'' : Memory Buffer} {t : Tmpl} {v : JsonFields Buffer} {root : CJson}
  {p ptr size w : ℕ}

/-- No pointer among `w` bytes of the struct points to a buffer. -/
def NoBuffers (mem : Memory Buffer) (p ptr w : ℕ) : Prop :=
  ∀ q bufP, ptr ≤ q → q + 8 ≤ ptr + w → mem.loadPtr p q = some bufP →
    bufP < mem.next ∧ mem.whole? bufP = none

theorem NoBuffers.next {r : RawBlock} (h : NoBuffers mem p ptr (size + w))
    (hp : mem.raw? p = some r) (hkeeps : mem.Keeps mem' p ptr (ptr + size)) :
    NoBuffers mem' p (ptr + size) w := by
  intro q bufP hq hend hload
  rw [hkeeps.loadPtr hp (.inr hq)] at hload
  obtain ⟨hlt, hnone⟩ := h q bufP (by omega) (by omega) hload
  refine ⟨hlt.trans_le hkeeps.next_le, ?_⟩
  by_cases hself : bufP = p
  · obtain ⟨r', hr', -⟩ := hkeeps.block r hp
    rw [hself]
    exact Memory.whole?_of_raw? hr'
  · rw [hkeeps.whole? hlt hself, hnone]

theorem noBuffers_of_blank (h : mem.Blank p ptr w) (hnext : 0 < mem.next) :
    NoBuffers mem p ptr w := by
  intro q bufP hq hend hload
  rw [h.loadPtr hq hend] at hload
  cases hload
  exact ⟨hnext, by simp [Memory.whole?]⟩

theorem storeNumber_keeps {n : ℕ} (h : storeNumber mem p ptr size n = some mem') :
    mem.Keeps mem' p ptr (ptr + size) := by
  unfold storeNumber at h
  split_ifs at h
  · exact .store h (by rw [length_leBytes])
  · cases h
    exact .refl _ _ _ _

/-- A string field without a buffer gets a new one, with the string in it. -/
theorem string_keeps (hno : NoBuffers mem p ptr (size + w)) (hsize : 8 ≤ size)
    (hp : p < mem.next) {bufP : ℕ} {s : List UInt8}
    (hbuf : fieldBuffer mem p ptr = some (bufP, mem')) (hs : cloneString mem' bufP s = some mem'') :
    mem.Keeps mem'' p ptr (ptr + size) ∧ mem.next < mem''.next ∧
      mem''.loadPtr p ptr = some mem.next ∧
      mem''.whole? mem.next = some (cloneToChunk s) := by
  obtain ⟨old, hold, hbuf⟩ := Option.bind_eq_some_iff.mp hbuf
  obtain ⟨buf, hwhole, rfl⟩ := Option.map_eq_some_iff.mp hs
  split_ifs at hbuf with hnull
  · obtain ⟨stored, hstored, heq⟩ := Option.map_eq_some_iff.mp hbuf
    cases heq
    have halloc := Memory.Keeps.alloc hp (.whole initBufferUnptr) ptr (ptr + size)
    have hkeeps : mem.Keeps mem' p ptr (ptr + size) := halloc.trans
      (.store hstored (by rw [length_ptrBytes]; omega)) le_rfl le_rfl
    have hnext : mem'.next = mem.next + 1 := Memory.next_store hstored
    refine ⟨hkeeps.set hp le_rfl _, hnext.symm.le, ?_, ?_⟩
    · rw [Memory.loadPtr_congr (Memory.obj_set_of_ne hp.ne), Memory.loadPtr_store hstored]
    · exact Memory.whole?_set (by omega) _
  · cases hbuf
    have hnone := (hno ptr bufP le_rfl (by omega) hold).2
    rw [hnone] at hwhole
    cases hwhole

/-- What stands behind a field for an object: the address of a block without values in the struct
and in the local variable, which is a block of its own. -/
structure OpenedObject (mem mem' : Memory Buffer) (p ptr local' descSize : ℕ) : Prop where
  keeps : mem.Keeps mem' p ptr (ptr + 8)
  field : mem'.loadPtr p ptr = some mem.next
  block : mem'.raw? mem.next = some (.fresh descSize)
  local_eq : local' = mem.next + 1
  next_eq : mem'.next = mem.next + 2
  room : ∃ r, mem'.raw? local' = some r ∧ r.size = 8
  held : mem'.loadPtr local' 0 = some mem.next

theorem openObject_spec (hp : p < mem.next) {local' descSize : ℕ}
    (h : openObject mem p ptr descSize = some (local', mem')) :
    OpenedObject mem mem' p ptr local' descSize := by
  obtain ⟨mid, hmid, hlocal⟩ := Option.bind_eq_some_iff.mp h
  obtain ⟨out, hout, heq⟩ := Option.map_eq_some_iff.mp hlocal
  cases heq
  have hmidnext : mid.next = mem.next + 1 := Memory.next_store hmid
  have hkeeps : mem.Keeps mid p ptr (ptr + 8) :=
    (Memory.Keeps.alloc hp _ ptr (ptr + 8)).trans (.store hmid (by rw [length_ptrBytes])) le_rfl
      le_rfl
  have hmidobj (q : ℕ) (hq : q < mid.next) : mem'.obj q = mid.obj q := by
    rw [Memory.obj_store_of_ne hout hq.ne, Memory.obj_alloc_of_lt hq]
  have hvar := (Memory.Keeps.store hout (e := 8) (by rw [length_ptrBytes])).block _
    (Memory.raw?_alloc (by omega))
  refine ⟨?_, ?_, ?_, hmidnext, ?_, ?_, Memory.loadPtr_store hout⟩
  · have hboth := hkeeps.trans (Memory.Keeps.alloc (by omega) (.raw (.fresh 8)) ptr (ptr + 8))
      le_rfl le_rfl
    exact hboth.of_newer (.store hout le_rfl) hp (by omega)
  · rw [Memory.loadPtr_congr (hmidobj p (by omega)), Memory.loadPtr_store hmid]
  · rw [Memory.raw?_congr (hmidobj _ (by omega)),
      Memory.raw?_congr (Memory.obj_store_of_ne hmid hp.ne'), Memory.raw?_alloc (by omega)]
  · rw [Memory.next_store hout, Memory.alloc, hmidnext]
  · obtain ⟨r, hr, hsize, -⟩ := hvar
    exact ⟨r, hr, hsize⟩

theorem exists_openObject (hblank : mem.Blank p ptr (size + w)) (hsize : 8 ≤ size)
    (hp : p < mem.next) (descSize : ℕ) :
    ∃ local' mem', openObject mem p ptr descSize = some (local', mem') := by
  have hgrown := hblank.of_keeps (Memory.Keeps.alloc hp (.raw (.fresh descSize)) 0 ptr) le_rfl
  obtain ⟨mid, hmid⟩ := hgrown.exists_store (ptrBytes mem.next) (by rwa [length_ptrBytes])
  have hmidnext : mid.next = mem.next + 1 := Memory.next_store hmid
  have hvar : (mid.alloc (.raw (.fresh 8))).raw? mid.next = some (.fresh 8) :=
    Memory.raw?_alloc (by omega)
  obtain ⟨out, hout⟩ := Memory.exists_store 0 (ptrBytes mem.next) hvar
    (by rw [length_ptrBytes]; exact le_rfl)
  refine ⟨mid.next, out, ?_⟩
  rw [openObject]
  simp only [hmid, hout, Option.bind_some, Option.map_some]

/-- Behind the pointer in the local variable there is nothing, and the pointer is no buffer. -/
theorem OpenedObject.noBuffers {local' descSize : ℕ}
    (h : OpenedObject mem mem' p ptr local' descSize) (w : ℕ) :
    NoBuffers mem' local' 0 w := by
  intro q bufP _ _ hload
  obtain ⟨r, hr, hsize⟩ := h.room
  by_cases hq : q = 0
  · subst hq
    rw [h.held] at hload
    cases hload
    exact ⟨by rw [h.next_eq]; omega, Memory.whole?_of_raw? h.block⟩
  · rw [Memory.loadPtr_of_outside hr (by omega)] at hload
    cases hload

/-- What the fields of the child do to the local variable does not reach the struct. -/
theorem OpenedObject.nested {local' descSize : ℕ} (h : OpenedObject mem mem' p ptr local' descSize)
    (hsize : 8 ≤ size) (hp : p < mem.next)
    (hfields : ∀ r, mem'.raw? local' = some r → local' < mem'.next → NoBuffers mem' local' 0 w →
      mem'.Keeps mem'' local' 0 (0 + w)) :
    mem.Keeps mem'' p ptr (ptr + size) := by
  obtain ⟨r, hr, -⟩ := h.room
  have hlocal := h.local_eq
  have hnext := h.next_eq
  have hkeeps := hfields r hr (by omega) (h.noBuffers w)
  exact (h.keeps.of_newer hkeeps hp (by omega)).trans (.refl _ _ ptr _) le_rfl (by omega)

/-- A step that keeps to its field and a rest that keeps to the fields behind it. -/
theorem keeps_field {r : RawBlock} {mid : Memory Buffer} (hp : p < mem.next)
    (hr : mem.raw? p = some r) (hno : NoBuffers mem p ptr (size + w))
    (hstep : mem.Keeps mid p ptr (ptr + size))
    (hrest : p < mid.next → ∀ r', mid.raw? p = some r' → NoBuffers mid p (ptr + size) w →
      mid.Keeps mem' p (ptr + size) (ptr + size + w)) :
    mem.Keeps mem' p ptr (ptr + (size + w)) := by
  obtain ⟨r', hr', -⟩ := hstep.block r hr
  have htail := hrest (hp.trans_le hstep.next_le) r' hr' (hno.next hr hstep)
  rw [← Nat.add_assoc]
  exact hstep.trans htail (by omega) (by omega)

/-- `unmarshel_json` changes the bytes of the fields of its struct and makes new objects. -/
theorem unmarshelFields_keeps (hshape : t.Shape) (hp : p < mem.next) {r : RawBlock}
    (hr : mem.raw? p = some r) (hno : NoBuffers mem p ptr t.width)
    (h : unmarshelFields t root p ptr mem = some mem') :
    mem.Keeps mem' p ptr (ptr + t.width) := by
  induction t generalizing root p ptr mem mem' r with
  | invalid =>
    cases h
    exact .refl _ _ _ _
  | number size key rest ih =>
    obtain ⟨hsize, -, hrest⟩ := hshape
    rw [unmarshelFields] at h
    cases hchild : getObjectItem root key with
    | none =>
      rw [hchild] at h
      exact keeps_field hp hr hno (.refl _ _ _ _) fun hp r' hr' hno => ih hrest hp hr' hno h
    | some child =>
      rw [hchild] at h
      obtain ⟨n, -, hwrite⟩ := Option.bind_eq_some_iff.mp h
      obtain ⟨mid, hmid, htail⟩ := Option.bind_eq_some_iff.mp hwrite
      exact keeps_field hp hr hno (storeNumber_keeps hmid) fun hp r' hr' hno =>
        ih hrest hp hr' hno htail
  | string size key rest ih =>
    obtain ⟨hsize, -, hrest⟩ := hshape
    rw [unmarshelFields] at h
    cases hchild : getObjectItem root key with
    | none =>
      rw [hchild] at h
      exact keeps_field hp hr hno (.refl _ _ _ _) fun hp r' hr' hno => ih hrest hp hr' hno h
    | some child =>
      rw [hchild] at h
      obtain ⟨⟨bufP, mid⟩, hbuf, hstr⟩ := Option.bind_eq_some_iff.mp h
      obtain ⟨s, -, hclone⟩ := Option.bind_eq_some_iff.mp hstr
      obtain ⟨out, hout, htail⟩ := Option.bind_eq_some_iff.mp hclone
      obtain ⟨hstep, -⟩ := string_keeps hno hsize hp hbuf hout
      exact keeps_field hp hr hno hstep fun hp r' hr' hno => ih hrest hp hr' hno htail
  | object size key descSize desc rest ihdesc ih =>
    obtain ⟨hsize, -, hdesc, hrest⟩ := hshape
    rw [unmarshelFields] at h
    cases hchild : getObjectItem root key with
    | none =>
      rw [hchild] at h
      exact keeps_field hp hr hno (.refl _ _ _ _) fun hp r' hr' hno => ih hrest hp hr' hno h
    | some child =>
      rw [hchild] at h
      obtain ⟨⟨local', mid⟩, hopen, hnested⟩ := Option.bind_eq_some_iff.mp h
      obtain ⟨out, hout, htail⟩ := Option.bind_eq_some_iff.mp hnested
      have hopened := openObject_spec hp hopen
      have hstep := hopened.nested hsize hp fun r hr hlt hno => ihdesc hdesc hlt hr hno hout
      exact keeps_field hp hr hno hstep fun hp r' hr' hno => ih hrest hp hr' hno htail

theorem exists_string (hblank : mem.Blank p ptr (size + w)) (hsize : 8 ≤ size)
    (hp : p < mem.next) (s : List UInt8) :
    ∃ bufP mid out, fieldBuffer mem p ptr = some (bufP, mid) ∧
      cloneString mid bufP s = some out := by
  have hgrown := hblank.of_keeps (Memory.Keeps.alloc hp (.whole initBufferUnptr) 0 ptr) le_rfl
  obtain ⟨mid, hmid⟩ := hgrown.exists_store (ptrBytes mem.next) (by rwa [length_ptrBytes])
  have hbuf : mid.whole? mem.next = some initBufferUnptr := by
    rw [Memory.whole?_congr (Memory.obj_store_of_ne hmid hp.ne'), Memory.whole?_alloc (by omega)]
  refine ⟨mem.next, mid, mid.set mem.next (.whole (cloneToChunk s)), ?_, ?_⟩
  · rw [fieldBuffer, hblank.loadPtr le_rfl (by omega), Option.bind_some, if_pos rfl, hmid]
    rfl
  · rw [cloneString, hbuf, Option.map_some]

/-- A struct without values has no shape but the empty one. -/
theorem readStruct_fresh {descSize : ℕ} (h : mem.raw? p = some (.fresh descSize))
    (hshape : t.Shape) (ht : t ≠ .invalid) : readStruct mem t p ptr = none := by
  have hunwritten : (RawBlock.fresh descSize).get ptr = none := RawBlock.get_fresh _ _
  cases t with
  | invalid => exact absurd rfl ht
  | number size key rest =>
    have hsize : size ∈ [1, 2, 4, 8] ∧ 0 < size := by
      rcases hshape.1 with rfl | rfl | rfl <;> decide
    rw [readStruct, loadNumber, if_pos hsize.1,
      Memory.loadNat_of_unwritten h hunwritten hsize.2, Option.bind_none]
  | string size key rest =>
    rw [readStruct, readBuffer, Memory.loadPtr_of_unwritten h hunwritten, Option.bind_none,
      Option.bind_none]
  | object size key descSize desc rest =>
    rw [readStruct, Memory.loadPtr_of_unwritten h hunwritten, Option.bind_none]

theorem takeWhile_eq_take {block : List UInt8} {n : ℕ} (hzero : 0 ∈ block)
    (hnul : 0 ∉ block.take n) : block.takeWhile (· ≠ 0) = block.take n ↔ block[n]? = some 0 := by
  induction block generalizing n with
  | nil => simp at hzero
  | cons b bs ih =>
    cases n with
    | zero => simp [List.takeWhile_cons]
    | succ n =>
      rw [List.take_succ_cons, List.mem_cons, not_or] at hnul
      have hb : b ≠ 0 := fun heq => hnul.1 heq.symm
      have htail : 0 ∈ bs := (List.mem_cons.mp hzero).resolve_left hnul.1
      simpa [hb] using ih htail hnul.2

/-- The C string of a buffer is what it holds, where a NUL stands right behind. -/
theorem cString_eq_content {buf : Buffer} {block s : List UInt8} (hptr : buf.ptr = some block)
    (hs : cString block = some s) (hnul : 0 ∉ buf.content) :
    s = buf.content ↔ buf.Terminated := by
  have hcontent : buf.content = block.take buf.len := by rw [Buffer.content, hptr, Option.getD_some]
  unfold cString at hs
  split_ifs at hs with hzero
  cases hs
  rw [hcontent] at hnul ⊢
  rw [takeWhile_eq_take hzero hnul, Buffer.Terminated, hptr]
  simp

/-- The struct is filled with the values, whatever allocation its strings are in. -/
def Filled (root : CJson) (t : Tmpl) (p ptr : ℕ) (mem : Memory Buffer) (v : JsonFields Buffer) :
    Prop :=
  ∃ mem' v', unmarshelFields t root p ptr mem = some mem' ∧ readStruct mem' t p ptr = some v' ∧
    v'.map Buffer.content = v.map Buffer.content

/-- The fields behind one that was filled keep to themselves. -/
theorem rest_keeps (hshape : t.Shape) (hblank : mem.Blank p ptr (size + t.width))
    (hp : p < mem.next) (hstep : mem.Keeps mem' p ptr (ptr + size))
    (h : unmarshelFields t root p (ptr + size) mem' = some mem'') :
    mem'.Keeps mem'' p (ptr + size) (ptr + size + t.width) := by
  have hnext := hstep.next_le
  have hrest := hblank.skip.of_keeps hstep le_rfl
  have ⟨r, hr, _⟩ := hrest
  exact unmarshelFields_keeps hshape (by omega) hr (noBuffers_of_blank hrest (by omega)) h

section Fields

variable {key : String} {rest : Tmpl} (vs : JsonFields Buffer)

/-- A number is filled where the fields behind it are. -/
theorem fills_number {n : ℕ} (hshape : (Tmpl.number size key rest).Shape)
    (hblank : mem.Blank p ptr (size + rest.width)) (hp : p < mem.next)
    (hchild : getObjectItem root key = some (.number n)) (hn : n < 256 ^ size) :
    ∃ mid, mem.Keeps mid p ptr (ptr + size) ∧
      (Filled root (.number size key rest) p ptr mem (.number n vs) ↔
        Filled root rest p (ptr + size) mid vs) := by
  obtain ⟨hsize, -, hrest⟩ := hshape
  have hin : size ∈ [1, 2, 4, 8] := by
    rcases hsize with rfl | rfl | rfl <;> decide
  obtain ⟨mid, hmid⟩ := hblank.exists_store (leBytes size n) (by rw [length_leBytes])
  have hwrite : storeNumber mem p ptr size n = some mid := by rw [storeNumber, if_pos hin, hmid]
  have hstep := storeNumber_keeps hwrite
  have hunmarshel : unmarshelFields (.number size key rest) root p ptr mem =
      unmarshelFields rest root p (ptr + size) mid := by
    rw [unmarshelFields, hchild]
    simp only [CJson.number?, Option.bind_some, hwrite]
  refine ⟨mid, hstep, ?_⟩
  have hback {mem' : Memory Buffer} (h : unmarshelFields rest root p (ptr + size) mid = some mem') :
      loadNumber mem' p ptr size = some n := by
    have hkeeps := rest_keeps hrest hblank hp hstep h
    obtain ⟨r, hr, -⟩ := hblank
    obtain ⟨r', hr', -⟩ := hstep.block r hr
    rw [loadNumber, if_pos hin, hkeeps.loadNat hr' (.inl le_rfl), Memory.loadNat_store hmid,
      Nat.mod_eq_of_lt hn]
  unfold Filled
  rw [hunmarshel]
  constructor
  · rintro ⟨mem', v', h, hread, hsame⟩
    rw [readStruct, hback h, Option.bind_some] at hread
    obtain ⟨vs', hvs', rfl⟩ := Option.map_eq_some_iff.mp hread
    refine ⟨mem', vs', h, hvs', ?_⟩
    simpa [JsonFields.map] using hsame
  · rintro ⟨mem', vs', h, hvs', hsame⟩
    refine ⟨mem', .number n vs', h, ?_, by rw [JsonFields.map, JsonFields.map, hsame]⟩
    rw [readStruct, hback h, Option.bind_some, hvs', Option.map_some]

/-- A string is filled where a NUL stands behind what it holds and the fields behind it are. -/
theorem fills_string {buf : Buffer} {block s : List UInt8}
    (hshape : (Tmpl.string size key rest).Shape)
    (hblank : mem.Blank p ptr (size + rest.width)) (hp : p < mem.next)
    (hptr : buf.ptr = some block) (hs : cString block = some s) (hnul : 0 ∉ buf.content)
    (hchild : getObjectItem root key = some (.string s)) :
    ∃ mid, mem.Keeps mid p ptr (ptr + size) ∧
      (Filled root (.string size key rest) p ptr mem (.string buf vs) ↔
        buf.Terminated ∧ Filled root rest p (ptr + size) mid vs) := by
  obtain ⟨hsize, -, hrest⟩ := hshape
  obtain ⟨bufP, mid, out, hbuf, hclone⟩ := exists_string hblank hsize hp s
  obtain ⟨hstep, hnext, hfield, hwhole⟩ :=
    string_keeps (noBuffers_of_blank hblank (by omega)) hsize hp hbuf hclone
  have hunmarshel : unmarshelFields (.string size key rest) root p ptr mem =
      unmarshelFields rest root p (ptr + size) out := by
    rw [unmarshelFields, hchild]
    simp only [hbuf, CJson.string?, Option.bind_some, hclone]
  refine ⟨out, hstep, ?_⟩
  have hback {mem' : Memory Buffer} (h : unmarshelFields rest root p (ptr + size) out = some mem') :
      readBuffer mem' p ptr = some (cloneToChunk s) := by
    have hkeeps := rest_keeps hrest hblank hp hstep h
    obtain ⟨r, hr, -⟩ := hblank
    obtain ⟨r', hr', -⟩ := hstep.block r hr
    rw [readBuffer, hkeeps.loadPtr hr' (.inl (by omega)), hfield, Option.bind_some,
      hkeeps.whole? hnext hp.ne', hwhole]
  rw [← cString_eq_content hptr hs hnul]
  unfold Filled
  rw [hunmarshel]
  constructor
  · rintro ⟨mem', v', h, hread, hsame⟩
    rw [readStruct, hback h, Option.bind_some] at hread
    obtain ⟨vs', hvs', rfl⟩ := Option.map_eq_some_iff.mp hread
    rw [JsonFields.map, JsonFields.map, content_cloneToChunk] at hsame
    obtain ⟨heq, hrestsame⟩ := JsonFields.string.inj hsame
    exact ⟨heq, mem', vs', h, hvs', hrestsame⟩
  · rintro ⟨heq, mem', vs', h, hvs', hsame⟩
    refine ⟨mem', .string (cloneToChunk s) vs', h, ?_, ?_⟩
    · rw [readStruct, hback h, Option.bind_some, hvs', Option.map_some]
    · rw [JsonFields.map, JsonFields.map, content_cloneToChunk, hsame, heq]

/-- A string that is NULL is not filled. -/
theorem not_fills_null {buf : Buffer} (hshape : (Tmpl.string size key rest).Shape)
    (hblank : mem.Blank p ptr (size + rest.width)) (hp : p < mem.next)
    (hchild : getObjectItem root key = none) :
    ¬Filled root (.string size key rest) p ptr mem (.string buf vs) := by
  rintro ⟨mem', v', h, hread, -⟩
  obtain ⟨hsize, -, hrest⟩ := hshape
  rw [unmarshelFields, hchild] at h
  have hkeeps := rest_keeps hrest hblank hp (.refl _ _ _ _) h
  have hzero := hblank.loadPtr (q := ptr) le_rfl (by omega)
  obtain ⟨r, hr, -⟩ := hblank
  rw [readStruct, readBuffer, hkeeps.loadPtr hr (.inl (by omega)), hzero, Option.bind_some] at hread
  simp [Memory.whole?] at hread

/-- An object is filled where it has no fields and the fields behind it are. -/
theorem fills_object {descSize : ℕ} {desc : Tmpl} {items : List (String × CJson)}
    {fields : JsonFields Buffer} (hshape : (Tmpl.object size key descSize desc rest).Shape)
    (hblank : mem.Blank p ptr (size + rest.width)) (hp : p < mem.next)
    (hchild : getObjectItem root key = some (.object items))
    (hempty : desc = .invalid → fields = .nil) :
    ∃ mid, mem.Keeps mid p ptr (ptr + size) ∧
      (Filled root (.object size key descSize desc rest) p ptr mem (.object fields vs) ↔
        desc = .invalid ∧ Filled root rest p (ptr + size) mid vs) := by
  obtain ⟨hsize, -, hdescshape, hrest⟩ := hshape
  obtain ⟨local', mid, hopen⟩ := exists_openObject hblank hsize hp descSize
  have hopened := openObject_spec hp hopen
  have hnext := hopened.next_eq
  have hlocal := hopened.local_eq
  have hstep : mem.Keeps mid p ptr (ptr + size) :=
    hopened.keeps.trans (.refl _ _ ptr _) le_rfl (by omega)
  refine ⟨mid, hstep, ?_⟩
  by_cases hdesc : desc = .invalid
  · subst hdesc
    rw [hempty rfl, and_iff_right rfl]
    have hunmarshel : unmarshelFields (.object size key descSize .invalid rest) root p ptr mem =
        unmarshelFields rest root p (ptr + size) mid := by
      rw [unmarshelFields, hchild]
      simp only [hopen, Option.bind_some, unmarshelFields]
    have hback {mem' : Memory Buffer}
        (h : unmarshelFields rest root p (ptr + size) mid = some mem') :
        mem'.loadPtr p ptr = some mem.next := by
      have hkeeps := rest_keeps hrest hblank hp hstep h
      obtain ⟨r, hr, -⟩ := hblank
      obtain ⟨r', hr', -⟩ := hstep.block r hr
      rw [hkeeps.loadPtr hr' (.inl (by omega)), hopened.field]
    unfold Filled
    rw [hunmarshel]
    constructor
    · rintro ⟨mem', v', h, hread, hsame⟩
      rw [readStruct, hback h, Option.bind_some, readStruct, Option.bind_some] at hread
      obtain ⟨vs', hvs', rfl⟩ := Option.map_eq_some_iff.mp hread
      refine ⟨mem', vs', h, hvs', ?_⟩
      simpa [JsonFields.map] using hsame
    · rintro ⟨mem', vs', h, hvs', hsame⟩
      refine ⟨mem', .object .nil vs', h, ?_, by simp [JsonFields.map, hsame]⟩
      rw [readStruct, hback h, Option.bind_some, readStruct, Option.bind_some, hvs',
        Option.map_some]
  · refine iff_of_false ?_ fun h => hdesc h.1
    rintro ⟨mem', v', h, hread, -⟩
    rw [unmarshelFields, hchild] at h
    simp only [hopen, Option.bind_some] at h
    obtain ⟨out, hout, htail⟩ := Option.bind_eq_some_iff.mp h
    obtain ⟨room, hroom, -⟩ := hopened.room
    have hnested := unmarshelFields_keeps hdescshape (by omega) hroom (hopened.noBuffers _) hout
    have hreached : mem.Keeps out p ptr (ptr + size) :=
      hstep.of_newer hnested hp (by omega)
    have hkeeps := rest_keeps hrest hblank hp hreached htail
    have houtnext := hnested.next_le
    -- the block got no value: the fields went to the local variable
    have hblock : mem'.raw? mem.next = some (.fresh descSize) := by
      rw [hkeeps.raw? (by omega) hp.ne', hnested.raw? (by omega) (by omega), hopened.block]
    have hfield : mem'.loadPtr p ptr = some mem.next := by
      obtain ⟨r, hr, -⟩ := hblank
      obtain ⟨r', hr', -⟩ := hreached.block r hr
      rw [hkeeps.loadPtr hr' (.inl (by omega)),
        Memory.loadPtr_congr (hnested.obj p (by omega) (by omega)), hopened.field]
    rw [readStruct, hfield, Option.bind_some, readStruct_fresh hblock hdescshape hdesc] at hread
    cases hread

end Fields

/-- A struct of zeros is filled from a tree that answers its fields, if and only if no nested object
has a field and every string is terminated. -/
theorem fills_iff (hshape : t.Shape) (hblank : mem.Blank p ptr t.width) (hp : p < mem.next)
    (hanswers : Answers root t v) (hnul : v.AllStrings fun b => 0 ∉ b.content) :
    Filled root t p ptr mem v ↔ t.Flat ∧ v.AllStrings Buffer.Terminated := by
  induction t generalizing p ptr mem v with
  | invalid =>
    cases v with
    | nil => exact iff_of_true ⟨mem, .nil, rfl, rfl, rfl⟩ ⟨trivial, trivial⟩
    | _ => cases hanswers
  | number size key rest ih =>
    cases v with
    | number n vs =>
      obtain ⟨⟨hchild, hn⟩, hrest⟩ := hanswers
      obtain ⟨mid, hstep, hiff⟩ := fills_number vs hshape hblank hp hchild hn
      rw [hiff, ih hshape.2.2 (hblank.skip.of_keeps hstep le_rfl) (hp.trans_le hstep.next_le) hrest
        hnul]
      rfl
    | _ => cases hanswers
  | string size key rest ih =>
    cases v with
    | string buf vs =>
      obtain ⟨⟨hptr, hchild⟩ | ⟨block, s, hptr, hs, hchild⟩, hrest⟩ := hanswers
      · refine iff_of_false (not_fills_null vs hshape hblank hp hchild) ?_
        rintro ⟨-, ⟨block, hblock, -⟩, -⟩
        rw [hptr] at hblock
        cases hblock
      · obtain ⟨mid, hstep, hiff⟩ :=
          fills_string vs hshape hblank hp hptr hs hnul.1 hchild
        rw [hiff, ih hshape.2.2 (hblank.skip.of_keeps hstep le_rfl) (hp.trans_le hstep.next_le)
          hrest hnul.2]
        exact and_left_comm
    | _ => cases hanswers
  | object size key descSize desc rest _ ih =>
    cases v with
    | object fields vs =>
      obtain ⟨⟨⟨items, hchild⟩, hempty⟩, hrest⟩ := hanswers
      obtain ⟨mid, hstep, hiff⟩ := fills_object vs hshape hblank hp hchild hempty
      rw [hiff, ih hshape.2.2.2 (hblank.skip.of_keeps hstep le_rfl) (hp.trans_le hstep.next_le)
        hrest hnul.2]
      constructor
      · rintro ⟨hdesc, hflat, hterm⟩
        rw [hempty hdesc]
        exact ⟨⟨hdesc, hflat⟩, trivial, hterm⟩
      · rintro ⟨⟨hdesc, hflat⟩, -, hterm⟩
        exact ⟨hdesc, hflat, hterm⟩
    | _ => cases hanswers

end Filling

section RoundTrip

variable {double : ℕ → ℕ} {mem mem' : Memory Buffer} {t : Tmpl} {v : JsonFields Buffer}
  {src dst : ℕ}

/-- `marshel_json` has a result where it reads no string past its block. -/
theorem exists_itemsOf (double : ℕ → ℕ) {p ptr : ℕ} (hflat : t.Flat)
    (hread : readStruct mem t p ptr = some v)
    (hterm : v.AllStrings Buffer.Terminated) : ∃ items, itemsOf double t v = some items := by
  induction t generalizing p ptr v with
  | invalid =>
    cases hread
    exact ⟨[], rfl⟩
  | number size key rest ih =>
    obtain ⟨n, -, htail⟩ := Option.bind_eq_some_iff.mp hread
    obtain ⟨vs, hvs, rfl⟩ := Option.map_eq_some_iff.mp htail
    obtain ⟨items, hitems⟩ := ih hflat hvs hterm
    exact ⟨(key, .number (double n)) :: items, by rw [itemsOf, hitems, Option.map_some]⟩
  | string size key rest ih =>
    obtain ⟨buf, -, htail⟩ := Option.bind_eq_some_iff.mp hread
    obtain ⟨vs, hvs, rfl⟩ := Option.map_eq_some_iff.mp htail
    obtain ⟨⟨block, hptr, hend⟩, hrest⟩ := hterm
    obtain ⟨items, hitems⟩ := ih hflat hvs hrest
    have hzero : 0 ∈ block := List.mem_of_getElem? hend
    refine ⟨(key, .string (block.takeWhile (· ≠ 0))) :: items, ?_⟩
    rw [itemsOf, hptr]
    simp only [cString, if_pos hzero, Option.bind_some, hitems, Option.map_some]
  | object size key descSize desc rest _ ih =>
    obtain ⟨rfl, hrest⟩ := hflat
    obtain ⟨child, -, hfields⟩ := Option.bind_eq_some_iff.mp hread
    obtain ⟨fields, hdesc, htail⟩ := Option.bind_eq_some_iff.mp hfields
    obtain ⟨vs, hvs, rfl⟩ := Option.map_eq_some_iff.mp htail
    cases hdesc
    obtain ⟨items, hitems⟩ := ih hrest hvs hterm.2
    refine ⟨(key, .object []) :: items, ?_⟩
    rw [itemsOf, hitems]
    rfl

theorem jsonRoundTrip_eq_some {items : List (String × CJson)}
    (hread : readStruct mem t src 0 = some v) (hitems : itemsOf double t v = some items) :
    jsonRoundTrip double mem src t mem' dst = some (v.map Buffer.content) ↔
      Filled (.object items) t dst 0 mem' v := by
  have hmarshel : marshelJson double mem src t = some (.object items) := by
    rw [marshelJson, marshelFields_eq hread, hitems]
    rfl
  rw [jsonRoundTrip, hmarshel, Option.bind_some, unmarshelJson, Option.bind_eq_some_iff]
  simp only [Option.map_eq_some_iff]
  constructor
  · rintro ⟨out, hout, v', hv', hsame⟩
    exact ⟨out, v', hout, hv', hsame⟩
  · rintro ⟨out, v', hout, hv', hsame⟩
    exact ⟨out, hout, v', hv', hsame⟩

/-- **Round trip of a template.** `unmarshel_json` of what `marshel_json` makes of a struct fills a
struct of zeros with its integers and strings, if and only if no nested object has a field and a
NUL stands behind every string. -/
theorem json_round_trip_iff (hdouble : ∀ n < 2 ^ 32, double n = n) (hshape : t.Shape)
    (hread : readStruct mem t src 0 = some v) (hnul : v.AllStrings fun b => 0 ∉ b.content)
    (hzero : mem'.Blank dst 0 t.width) (hdst : dst < mem'.next) :
    jsonRoundTrip double mem src t mem' dst = some (v.map Buffer.content) ↔
      t.Flat ∧ v.AllStrings Buffer.Terminated := by
  cases hitems : itemsOf double t v with
  | none =>
    refine iff_of_false ?_ ?_
    · rw [jsonRoundTrip, marshelJson, marshelFields_eq hread, hitems]
      simp
    · rintro ⟨hflat, hterm⟩
      obtain ⟨items, hsome⟩ := exists_itemsOf double hflat hread hterm
      rw [hitems] at hsome
      cases hsome
  | some items =>
    have hanswers := answers_of_items hdouble hshape hread [] hitems (by simp)
    rw [List.nil_append] at hanswers
    rw [jsonRoundTrip_eq_some hread hitems, fills_iff hshape hzero hdst hanswers hnul]

/-- A memory with a struct of the given bytes at 1 and another object at 2. -/
def structAt (bytes : List MemByte) (x : MemObject Buffer) : Memory Buffer :=
  (Memory.alloc ⟨1, fun _ => none⟩ (.raw ⟨bytes.length, fun a => bytes[a]?⟩)).alloc x

/-- A byte and a string. -/
theorem json_round_trip_iff_flat :
    jsonRoundTrip id (structAt (.plain 7 :: ptrBytes 2) (.whole (cloneToChunk [65]))) 1
        (.number 1 "k" (.string 8 "name" .invalid))
        (structAt (List.replicate 9 (.plain 0)) (.raw (.fresh 0))) 1 =
      some (.number 7 (.string [65] .nil)) := by
  have hblank : (structAt (List.replicate 9 (.plain 0)) (.raw (.fresh 0))).Blank 1 0 9 :=
    ⟨⟨9, fun a => (List.replicate 9 (.plain 0))[a]?⟩, rfl, le_rfl, by decide⟩
  have hshape : (Tmpl.number 1 "k" (.string 8 "name" .invalid)).Shape :=
    ⟨.inl rfl, by decide, le_rfl, by decide, trivial⟩
  exact (json_round_trip_iff (v := .number 7 (.string (cloneToChunk [65]) .nil))
    (fun n _ => rfl) hshape (by decide +kernel) ⟨by decide, trivial⟩ hblank (by decide)).mpr
    ⟨trivial, ⟨[65, 0], rfl, rfl⟩, trivial⟩

/-- A struct with a pointer to a struct of one byte: the byte is lost. -/
theorem json_nested_lost :
    let t : Tmpl := .object 8 "o" 1 (.number 1 "m" .invalid) .invalid
    let mem := structAt (ptrBytes 2) (.raw ⟨1, fun _ => some (.plain 5)⟩)
    readStruct mem t 1 0 = some (.object (.number 5 .nil) .nil) ∧
      jsonRoundTrip id mem 1 t (structAt (ptrBytes 0) (.raw (.fresh 0))) 1 = none := by
  decide +kernel

end RoundTrip

end LdacsSdk

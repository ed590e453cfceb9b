import LdacsSdk.Window.Receiver
import LdacsSdk.Window.Sender

/-!
# From one SDU to its fragments and back

An SDU put into an empty sender window leaves it in fragments as the successive budgets allow,
and a receiver window that is fed these fragments hands the SDU up. The last fragment carries
the whole SDU again, whatever went before it, so this works for one fragment only.
-/
namespace LdacsSdk

open Library

/-- The sender window after `k` calls of `window_check_get` with successive budgets. -/
def senderAfter (past : ℕ → UInt8) (budgets : ℕ → ℤ) (w : Window) : ℕ → Window
  | 0 => w
  | k + 1 => (windowCheckGet past (senderAfter past budgets w k) (budgets k)).2.1

/-- The context that call `k` of `window_check_get` hands out. -/
def emitted (past : ℕ → UInt8) (budgets : ℕ → ℤ) (w : Window) (k : ℕ) : Option WindowCtx :=
  (windowCheckGet past (senderAfter past budgets w k) (budgets k)).1

/-- Feed contexts to `window_put_ctx` in order. -/
def feedCtxs (allocated : Bool) (w : Window) (ctxs : List WindowCtx) : Option Window :=
  ctxs.foldlM (fun w ctx => (windowPutCtx allocated w ctx).map Prod.fst) w

/-- The contexts handed out up to and including the first one that is a last fragment. -/
structure FirstBurst (past : ℕ → UInt8) (budgets : ℕ → ℤ) (w : Window) (ctxs : List WindowCtx) :
    Prop where
  handedOut : ∀ i, i < ctxs.length → emitted past budgets w i = ctxs[i]?
  lastFragment : ctxs.getLast?.map WindowCtx.isLfr = some true
  noneBefore : ∀ ctx ∈ ctxs.dropLast, ctx.isLfr = false

/-- The SDU put into `tx` comes out of `rx`: the fragments carry its bytes in order, the first
of them and no other says that it is the first, and `rx` hands the SDU up after them. -/
def FragmentRoundTrip (past : ℕ → UInt8) (budgets : ℕ → ℤ) (allocated : Bool) (tx rx : Window)
    (cos : ℕ) (sdu : List UInt8) : Prop :=
  ∃ w pid ctxs, windowPut tx cos sdu = some (w, pid) ∧ FirstBurst past budgets w ctxs ∧
    (ctxs.map fun ctx => ctx.buf.content).flatten = sdu ∧
    ctxs.map WindowCtx.isRst = true :: List.replicate (ctxs.length - 1) false ∧
    ∃ rx', feedCtxs allocated rx ctxs = some rx' ∧
      (windowInGet rx').1.map Buffer.content = some sdu

variable {past : ℕ → UInt8} {budgets : ℕ → ℤ} {w : Window} {buf : Buffer}

theorem Window.Sending.sentPart (h : w.Sending buf) (sz : ℕ) : (w.sentPart sz).Sending buf := by
  refine ⟨?_, h.2⟩
  simpa [Window.sentPart] using h.1

/-- With an SDU to send, a call hands out the whole of it when the budget covers all of it, and
else as many bytes as the budget says. -/
theorem windowCheckGet_sending (past : ℕ → UInt8) (h : w.Sending buf) (b : ℤ) : ∃ ctx,
    (windowCheckGet past w b).1 = some ctx ∧ ctx.isLfr = decide (buf.len ≤ u64 b) ∧
      (ctx.isLfr = true → ctx.buf.content = buf.content) ∧
      (ctx.isLfr = false → ctx.buf.content.length = u64 b ∧
        (windowCheckGet past w b).2.1.Sending buf) := by
  by_cases hb : buf.len ≤ u64 b
  · rw [windowCheckGet_whole h hb]
    exact ⟨_, rfl, by simp [hb], by simp, by simp⟩
  · rw [windowCheckGet_part h hb]
    exact ⟨_, rfl, by simp [hb], by simp, fun _ => ⟨by simp, h.sentPart _⟩⟩

/-- The SDU stays on offer until its last fragment is out. -/
theorem sending_senderAfter (h : w.Sending buf) (k : ℕ)
    (hpart : ∀ i < k, ∀ ctx, emitted past budgets w i = some ctx → ctx.isLfr = false) :
    (senderAfter past budgets w k).Sending buf := by
  induction k with
  | zero => exact h
  | succ k ih =>
    obtain ⟨ctx, hctx, -, -, hnext⟩ :=
      windowCheckGet_sending past (ih fun i hi => hpart i (by omega)) (budgets k)
    exact (hnext (hpart k (by omega) ctx hctx)).2

/-- The last fragment of a burst carries the whole SDU. -/
theorem FirstBurst.last_content {ctxs : List WindowCtx} (hb : FirstBurst past budgets w ctxs)
    (h : w.Sending buf) {ctx : WindowCtx} (hlast : ctxs.getLast? = some ctx) :
    ctx.buf.content = buf.content := by
  obtain ⟨front, rfl⟩ := List.getLast?_eq_some_iff.mp hlast
  have hlfr : ctx.isLfr = true := by simpa using hb.lastFragment
  have hsend : (senderAfter past budgets w front.length).Sending buf := by
    refine sending_senderAfter h _ fun i hi ctx' hctx' => hb.noneBefore ctx' ?_
    rw [hb.handedOut i (by simp; omega), List.getElem?_append_left hi] at hctx'
    simpa using List.mem_of_getElem? hctx'
  obtain ⟨ctx', hctx', -, hwhole, -⟩ :=
    windowCheckGet_sending past hsend (budgets front.length)
  have hsame : some ctx = some ctx' := by
    rw [← hctx', ← emitted, hb.handedOut _ (by simp)]
    simp
  cases hsame
  exact hwhole hlfr

/-- An SDU beyond the first budget leaves a burst that carries more bytes than the SDU has. -/
theorem FirstBurst.longer {ctxs : List WindowCtx} (hb : FirstBurst past budgets w ctxs)
    (h : w.Sending buf) (hlen : u64 (budgets 0) < buf.len) (hpos : 0 < u64 (budgets 0)) :
    buf.content.length < (ctxs.map fun ctx => ctx.buf.content).flatten.length := by
  obtain ⟨ctx₀, hctx₀, hlfr₀, -, hpart₀⟩ := windowCheckGet_sending past h (budgets 0)
  have hlfr : ctx₀.isLfr = false := by simpa [hlfr₀] using hlen
  cases hlast : ctxs.getLast? with
  | none =>
    have := hb.lastFragment
    simp [hlast] at this
  | some ctx =>
    have hcontent := hb.last_content h hlast
    obtain ⟨front, rfl⟩ := List.getLast?_eq_some_iff.mp hlast
    have hfirst := hb.handedOut 0 (by simp)
    rw [emitted, senderAfter, hctx₀] at hfirst
    cases front with
    | nil =>
      have hctx : ctx₀ = ctx := by simpa using hfirst
      have := hb.lastFragment
      simp [← hctx, hlfr] at this
    | cons ctx' front =>
      have hctx : ctx₀ = ctx' := by simpa using hfirst
      subst hctx
      have hsize := (hpart₀ hlfr).1
      simp only [List.cons_append, List.map_cons, List.map_append, List.flatten_cons,
        List.flatten_append, List.length_append, List.map_nil, List.flatten_nil,
        List.append_nil, hcontent]
      omega

/-- An SDU that fits into the first budget leaves in one context. -/
theorem FirstBurst.single {ctxs : List WindowCtx} (hb : FirstBurst past budgets w ctxs)
    (h : w.Sending buf) (hlen : buf.len ≤ u64 (budgets 0)) :
    ctxs = (windowCheckGet past w (budgets 0)).1.toList := by
  obtain ⟨ctx, hctx, hlfr, -, -⟩ := windowCheckGet_sending past h (budgets 0)
  cases ctxs with
  | nil =>
    have := hb.lastFragment
    simp at this
  | cons ctx' rest =>
    have hfirst := hb.handedOut 0 (by simp)
    rw [emitted, senderAfter, hctx] at hfirst
    obtain rfl : ctx = ctx' := by simpa using hfirst
    cases rest with
    | nil => simp [hctx]
    | cons next rest =>
      have := hb.noneBefore ctx (by simp)
      simp [hlfr, hlen] at this

/-- A sender window with one SDU put and nothing sent. -/
def offeredWindow (n p cos : ℕ) (sdu : List UInt8) : Window :=
  { (emptyWindow n p).setItem p { cos := cos, buf := some (cloneToChunk sdu) } with
    availStart := u8 ((p + 1) % n)
    availSize := n - 1 }

variable {n p cos : ℕ} {sdu : List UInt8} {allocated : Bool}

theorem windowPut_emptyWindow (hn : 0 < n) :
    windowPut (emptyWindow n p) cos sdu = some (offeredWindow n p cos sdu, p) := by
  simp [windowPut, emptyWindow, offeredWindow, Window.setItem, hn.ne']

theorem offeredWindow_sending (hp : p < n) :
    (offeredWindow n p cos sdu).Sending (cloneToChunk sdu) := by
  refine ⟨?_, ?_⟩
  · simp [offeredWindow, emptyWindow, Nat.mod_eq_of_lt hp]
  · simp only [offeredWindow, Window.setItem_seqSz, emptyWindow]
    omega

/-- The context that carries a whole SDU. -/
def wholeSdu (p cos : ℕ) (sdu : List UInt8) : WindowCtx :=
  ⟨cloneToChunk sdu, p, cos, u8 sdu.length, true, true⟩

theorem checkGet_offered (hp : p < n) {b : ℤ} (hb : sdu.length ≤ u64 b) :
    (windowCheckGet past (offeredWindow n p cos sdu) b).1 = some (wholeSdu p cos sdu) := by
  rw [windowCheckGet_whole (offeredWindow_sending hp) hb]
  simp [offeredWindow, emptyWindow, Nat.mod_eq_of_lt hp, wholeSdu]

theorem firstBurst_offered (hp : p < n) (hb : sdu.length ≤ u64 (budgets 0)) :
    FirstBurst past budgets (offeredWindow n p cos sdu) [wholeSdu p cos sdu] where
  handedOut i hi := by
    obtain rfl : i = 0 := by simpa using hi
    exact checkGet_offered hp hb
  lastFragment := rfl
  noneBefore ctx hctx := by simp at hctx

/-- A fresh receiver window takes the lower half of the sequence numbers. -/
theorem accepts_initWindow (hn : 2 ≤ n) (hn' : n ≤ 256) : (initWindow n).Accepts p ↔ p < n / 2 := by
  have hend : u8 (n / 2 % n) = n / 2 := by
    rw [Nat.mod_eq_of_lt (by omega), u8_of_lt (by omega)]
  simp [Window.Accepts, initWindow, emptyWindow, hend, InRange]

theorem not_ready_initWindow (q : ℕ) : ¬ ((initWindow n).items q).Ready := by
  simp [initWindow, emptyWindow, WindowItem.Ready]

/-- A fresh receiver window with one whole SDU stored in it. -/
def storedWindow (n p cos : ℕ) (sdu : List UInt8) : Window :=
  (initWindow n).storeFragment (wholeSdu p cos sdu)
    { offset := u8 (u8 sdu.length), cos := cos, buf := some (cloneToChunk sdu) }

theorem feedCtxs_accept (h : (initWindow n).Accepts p) (hp : p < n) :
    feedCtxs allocated (initWindow n) [wholeSdu p cos sdu] = some (storedWindow n p cos sdu) := by
  have hput := windowPutCtx_first (wholeSdu p cos sdu) h hp rfl allocated
  simp only [feedCtxs, List.foldlM_cons, hput]
  simp [storedWindow, wholeSdu, initWindow, emptyWindow]

theorem feedCtxs_reject (h : ¬ (initWindow n).Accepts p) :
    feedCtxs allocated (initWindow n) [wholeSdu p cos sdu] = some (initWindow n) := by
  simp [feedCtxs, windowPutCtx_reject (wholeSdu p cos sdu) h]

theorem readySlot_storedWindow (hp : p < n / 2) (hn : p < n) :
    (storedWindow n p cos sdu).readySlot = some p := by
  refine Window.readySlot_eq (i := p) ?_ (fun q hq => ?_) hp ?_
  · simp [storedWindow, Window.storeFragment, wholeSdu, WindowItem.Ready]
  · by_contra hne
    rw [storedWindow, Window.storeFragment_of_ne _ _ _ hne] at hq
    exact not_ready_initWindow q hq
  · simp [storedWindow, Window.storeFragment, initWindow, emptyWindow, Nat.mod_eq_of_lt hn]

/-- A fresh receiver window hands up an SDU that comes whole if and only if it takes its
sequence number. -/
theorem inGet_wholeSdu (hn : 2 ≤ n) (hn' : n ≤ 256) (hp : p < n) :
    (∃ rx', feedCtxs allocated (initWindow n) [wholeSdu p cos sdu] = some rx' ∧
      (windowInGet rx').1.map Buffer.content = some sdu) ↔ p < n / 2 := by
  constructor
  · rintro ⟨rx', hfeed, hget⟩
    by_contra hout
    rw [feedCtxs_reject (mt (accepts_initWindow hn hn').mp hout), Option.some.injEq] at hfeed
    rw [← hfeed, windowInGet, windowInGetBuf,
      Window.readySlot_none not_ready_initWindow] at hget
    simp at hget
  · intro hin
    refine ⟨_, feedCtxs_accept ((accepts_initWindow hn hn').mpr hin) hp, ?_⟩
    rw [windowInGet, windowInGetBuf, readySlot_storedWindow hin hp]
    simp [storedWindow, Window.storeFragment, wholeSdu]

/-- An SDU put into an empty sender window and fed to a fresh receiver window comes out again
if and only if the first budget covers all of it and its sequence number is one that a fresh
receiver window takes. -/
theorem fragment_round_trip_iff (past : ℕ → UInt8) (budgets : ℕ → ℤ)
    (hbudget : ∀ i, 0 < budgets i ∧ budgets i < 2 ^ 63) (allocated : Bool) (n : ℕ) (hn : 2 ≤ n)
    (hn' : n ≤ 256) (p : ℕ) (hp : p < n) (cos : ℕ) (sdu : List UInt8) :
    FragmentRoundTrip past budgets allocated (emptyWindow n p) (initWindow n) cos sdu ↔
      sdu.length ≤ budgets 0 ∧ p < n / 2 := by
  obtain ⟨hpos, hmax⟩ := hbudget 0
  have hb : u64 (budgets 0) = (budgets 0).toNat := u64_of_nonneg hpos.le (by omega)
  have hsend : (offeredWindow n p cos sdu).Sending (cloneToChunk sdu) := offeredWindow_sending hp
  constructor
  · rintro ⟨w, pid, ctxs, hput, hburst, hconcat, -, hrecv⟩
    rw [windowPut_emptyWindow (by omega), Option.some.injEq, Prod.mk.injEq] at hput
    obtain ⟨rfl, -⟩ := hput
    have hfits : sdu.length ≤ u64 (budgets 0) := by
      by_contra hlt
      have hlong := hburst.longer hsend (by simpa using hlt) (by omega)
      rw [hconcat, content_cloneToChunk] at hlong
      exact absurd hlong (lt_irrefl _)
    refine ⟨by omega, ?_⟩
    rw [hburst.single hsend hfits, checkGet_offered hp hfits] at hrecv
    exact (inGet_wholeSdu hn hn' hp).mp hrecv
  · rintro ⟨hlen, hin⟩
    have hfits : sdu.length ≤ u64 (budgets 0) := by omega
    refine ⟨_, p, [wholeSdu p cos sdu], windowPut_emptyWindow (by omega),
      firstBurst_offered hp hfits, by simp [wholeSdu], rfl, ?_⟩
    exact (inGet_wholeSdu hn hn' hp).mpr hin

/-- Three bytes within a budget of nine. -/
theorem fragment_round_trip_whole :
    FragmentRoundTrip (fun _ => 0) (fun _ => 9) true (emptyWindow 4 1) (initWindow 4) 0
      [1, 2, 3] :=
  (fragment_round_trip_iff _ _ (fun _ => by decide) true 4 (by decide) (by decide) 1 (by decide)
    0 _).mpr (by decide)

/-- Three bytes with budgets of two and then three bytes leave as `[1, 2]` and `[1, 2, 3]`. -/
theorem last_fragment_repeats_sdu :
    ¬ ∀ (past : ℕ → UInt8) (budgets : ℕ → ℤ), (∀ i, 0 < budgets i ∧ budgets i < 2 ^ 63) →
      ∀ n, 2 ≤ n → n ≤ 256 → ∀ cos sdu, sdu ≠ [] →
      FragmentRoundTrip past budgets true (initWindow n) (initWindow n) cos sdu := by
  intro hall
  obtain ⟨w, pid, ctxs, hput, hburst, hconcat, -⟩ :=
    hall (fun _ => 0) (fun i => if i = 0 then 2 else 3) (fun i => by split <;> decide)
      2 (by decide) (by decide) 0 [1, 2, 3] (by decide)
  obtain rfl : offeredWindow 2 0 0 [1, 2, 3] = w :=
    (Prod.mk.inj (Option.some.inj hput)).1
  have hlong := hburst.longer (offeredWindow_sending (by decide)) (by decide) (by decide)
  rw [hconcat] at hlong
  exact absurd hlong (by decide)

end LdacsSdk

import PthreadWorkqueue.Cache.Items

/-! What a step over the allocator of type 3 can do. -/
namespace PthreadWorkqueue.Cache
open Concurrency
open Posix (Tid)

/-- The item that the thread's next access goes to. -/
def Pc.hand : Pc → Option Addr
  | .recycle _ _ w | .store w _ _ | .release w _ => some w
  | .cleanup next => next
  | _ => none

inductive Step (sh : Shared Item) (t : Tid) : Thread → Choice Item → Out → Prop where
  /- the program -/
  | callRecycle {w f a} : Step sh t ⟨some w, .app⟩ (.alloc f a)
      ⟨sh, ⟨some w, .recycle f a w⟩, [], [.called t f a]⟩
  | callMalloc {f a} : Step sh t ⟨none, .app⟩ (.alloc f a)
      ⟨sh, ⟨none, .malloc f a⟩, [], [.called t f a]⟩
  | callFree {key w} : w ∈ sh.live → Step sh t ⟨key, .app⟩ (.free w)
      ⟨{ sh with live := sh.live.erase w }, ⟨key, .store w (freeStores key) .free⟩, [],
        [.freeing t w]⟩
  | use {key w s x} : w ∈ sh.live → sh.heap w = some x → Step sh t ⟨key, .app⟩ (.store w s)
      ⟨sh.put w ((ItemStore.work s).run x), ⟨key, .app⟩, [], [.stored t w s]⟩
  | load {key w x} : w ∈ sh.live → sh.heap w = some x → Step sh t ⟨key, .app⟩ (.load w)
      ⟨sh, ⟨key, .app⟩, [], [.loaded t w x.toWork]⟩
  | create {key} : Step sh t ⟨key, .app⟩ .create ⟨sh, ⟨key, .app⟩, [newThread], [.created t]⟩
  | exit {w} : Step sh t ⟨some w, .app⟩ .exit ⟨sh, ⟨none, .cleanup (some w)⟩, [], [.exited t]⟩
  | exitEmpty : Step sh t ⟨none, .app⟩ .exit ⟨sh, ⟨none, .app⟩, [], [.exited t]⟩
  /- witem_alloc, witem_alloc_from_heap -/
  | recycle {key f a w x} : sh.heap w = some x → Step sh t ⟨key, .recycle f a w⟩ .go
      ⟨sh, ⟨x.wiNext, .store w ((callStores f a).map .work) (.alloc f a)⟩, [], []⟩
  | retry {key f a} : Step sh t ⟨key, .malloc f a⟩ (.block none)
      ⟨sh, ⟨key, .malloc f a⟩, [], []⟩
  | malloc {key f a w x} : sh.heap w = none → Step sh t ⟨key, .malloc f a⟩ (.block (some (w, x)))
      ⟨sh.put w x, ⟨key, .store w ((initStores ++ callStores f a).map .work) (.alloc f a)⟩, [], []⟩
  | store {key w s ss k x} : sh.heap w = some x → Step sh t ⟨key, .store w (s :: ss) k⟩ .go
      ⟨sh.put w (s.run x), ⟨key, .store w ss k⟩, [], []⟩
  | allocated {key w f a x} : sh.heap w = some x → Step sh t ⟨key, .store w [] (.alloc f a)⟩ .go
      ⟨{ sh with live := w :: sh.live }, ⟨key, .app⟩, [], [.allocated t f a w x.toWork]⟩
  /- the end of witem_free -/
  | freed {key w} : Step sh t ⟨key, .store w [] .free⟩ (.code 0)
      ⟨sh, ⟨some w, .app⟩, [], [.freed t w]⟩
  | leaked {w n} : Step sh t ⟨none, .store w [] .free⟩ (.code n)
      ⟨sh, ⟨none, .app⟩, [], [.freed t w]⟩
  /- witem_cache_cleanup -/
  | cleaned {key} : Step sh t ⟨key, .cleanup none⟩ .go ⟨sh, ⟨key, .app⟩, [], []⟩
  | visit {key w x} : sh.heap w = some x → Step sh t ⟨key, .cleanup (some w)⟩ .go
      ⟨sh, ⟨key, .release w x.wiNext⟩, [], []⟩
  | release {key w next} : sh.heap w ≠ none → Step sh t ⟨key, .release w next⟩ .go
      ⟨{ sh with heap := Function.update sh.heap w none }, ⟨key, .cleanup next⟩, [],
        [.released t w]⟩
  /- an access to a block that is not allocated -/
  | fault {p ch w o} : w ∈ sh.live ∨ p.pc.hand = some w → sh.heap w = none → Step sh t p ch o

variable {sh : Shared Item} {t : Tid} {key : Option Addr} {p : Thread} {ch : Choice Item} {o : Out}

theorem Step.access {w : Addr} {k : Item → Out} (hw : w ∈ sh.live ∨ p.pc.hand = some w)
    (found : ∀ x, sh.heap w = some x → Step sh t p ch (k x)) :
    Step sh t p ch (sh.access p w k) := by
  unfold Shared.access
  split
  · exact found _ (by assumption)
  · exact .fault hw (by assumption)

private theorem app_step (h : cachedNext sh t ⟨key, .app⟩ .app ch = some o) :
    Step sh t ⟨key, .app⟩ ch o := by
  cases ch <;> simp only [cachedNext, reduceCtorEq, Option.some.injEq,
    Option.ite_none_right_eq_some] at h
  case alloc =>
    cases key <;> cases h
    · exact .callMalloc
    · exact .callRecycle
  case free => obtain ⟨hw, rfl⟩ := h; exact .callFree hw
  case store => obtain ⟨hw, rfl⟩ := h; exact .access (.inl hw) fun x hx => .use hw hx
  case load => obtain ⟨hw, rfl⟩ := h; exact .access (.inl hw) fun x hx => .load hw hx
  case create => subst h; exact .create
  case exit =>
    cases key <;> cases h
    · exact .exitEmpty
    · exact .exit

private theorem malloc_step {f a : Option Nat}
    (h : cachedNext sh t ⟨key, .malloc f a⟩ (.malloc f a) ch = some o) :
    Step sh t ⟨key, .malloc f a⟩ ch o := by
  cases ch with
  | block b =>
    cases b <;> simp only [cachedNext, Option.some.injEq, Option.ite_none_right_eq_some] at h
    case none => subst h; exact .retry
    case some => obtain ⟨hw, rfl⟩ := h; exact .malloc hw
  | _ => cases h

private theorem store_step {w : Addr} {ss : List ItemStore} {k : After}
    (h : cachedNext sh t ⟨key, .store w ss k⟩ (.store w ss k) ch = some o) :
    Step sh t ⟨key, .store w ss k⟩ ch o := by
  cases ss with
  | cons s ss =>
    cases ch <;> cases h
    exact .access (.inr rfl) fun x hx => .store hx
  | nil =>
    cases k with
    | alloc f a =>
      cases ch <;> cases h
      exact .access (.inr rfl) fun x hx => .allocated hx
    | free =>
      cases ch <;> simp only [cachedNext, reduceCtorEq] at h
      split at h
      · subst_vars
        cases h
        exact .freed
      · simp only [Option.ite_none_right_eq_some] at h
        obtain ⟨rfl, h⟩ := h
        cases h
        exact .leaked

private theorem cleanup_step {next : Option Addr}
    (h : cachedNext sh t ⟨key, .cleanup next⟩ (.cleanup next) ch = some o) :
    Step sh t ⟨key, .cleanup next⟩ ch o := by
  cases next <;> cases ch <;> cases h
  · exact .cleaned
  · exact .access (.inr rfl) fun x hx => .visit hx

private theorem release_step {w : Addr} {next : Option Addr}
    (h : cachedNext sh t ⟨key, .release w next⟩ (.release w next) ch = some o) :
    Step sh t ⟨key, .release w next⟩ ch o := by
  cases ch <;> cases h
  unfold Shared.release
  split
  · exact .release (by simp [*])
  · exact .fault (.inr rfl) (by assumption)

theorem cached_step (h : cached sh t p ch = some o) : Step sh t p ch o := by
  simp only [cached, Option.ite_none_right_eq_some] at h
  obtain ⟨_, h⟩ := h
  obtain ⟨key, pc⟩ := p
  cases pc with
  | app => exact app_step h
  | recycle f a w =>
    cases ch <;> cases h
    exact .access (.inr rfl) fun x hx => .recycle hx
  | malloc f a => exact malloc_step h
  | store w ss k => exact store_step h
  | cleanup next => exact cleanup_step h
  | release w next => exact release_step h

end PthreadWorkqueue.Cache

import PthreadWorkqueue.Posix.State

/-! The allocators of `witem_cache.c`: none (WITEM_CACHE_TYPE 1) and a list for each thread, kept in
thread-specific data (WITEM_CACHE_TYPE 3). A program of any number of threads calls them, uses the
items it has and ends threads; every access to memory is a step. A null pointer is `none`. -/
namespace PthreadWorkqueue.Cache
open Concurrency
open Posix (Tid Halt)

abbrev Addr := Nat

/-- A `struct work` up to `wi_next`. -/
structure Work where
  stqeNext : Option Addr
  func : Option Nat
  funcArg : Option Nat
  flags : UInt32
  gencount : UInt32
  deriving DecidableEq, Repr

/-- A `struct work` with WITEM_CACHE_TYPE 3. -/
structure Item extends Work where
  wiNext : Option Addr
  deriving DecidableEq, Repr

/-- An assignment to a field. -/
inductive Store where
  | stqeNext (p : Option Addr)
  | func (f : Option Nat)
  | funcArg (a : Option Nat)
  | flags (n : UInt32)
  | gencount (n : UInt32)
  deriving DecidableEq, Repr

def Store.run : Store → Work → Work
  | .stqeNext p, x => { x with stqeNext := p }
  | .func f, x => { x with func := f }
  | .funcArg a, x => { x with funcArg := a }
  | .flags n, x => { x with flags := n }
  | .gencount n, x => { x with gencount := n }

inductive ItemStore where
  | work (s : Store)
  | wiNext (p : Option Addr)
  deriving DecidableEq, Repr

def ItemStore.run : ItemStore → Item → Item
  | .work s, x => { x with toWork := s.run x.toWork }
  | .wiNext p, x => { x with wiNext := p }

/-- What a block from `malloc` gets first. -/
def initStores : List Store := [.gencount 0, .flags 0, .stqeNext none]

/-- What `witem_alloc` writes last. -/
def callStores (f a : Option Nat) : List Store := [.func f, .funcArg a]

/-- What `witem_free` of type 3 writes. -/
def freeStores (prevWi : Option Addr) : List ItemStore :=
  .wiNext prevWi :: (initStores ++ callStores none none).map .work

structure Shared (ι : Type) where
  halted : Option Halt
  /-- The blocks that `malloc` returned and `free` did not get since. -/
  heap : Addr → Option ι
  /-- The items that `witem_alloc` returned and `witem_free` was not called with since. -/
  live : List Addr

variable {ι π ε : Type}

/-- An access to a block; it ends the process if the block is not allocated. -/
def Shared.access (sh : Shared ι) (p : π) (w : Addr) (k : ι → Outcome (Shared ι) π ε) :
    Outcome (Shared ι) π ε :=
  match sh.heap w with
  | some x => k x
  | none => ⟨{ sh with halted := some .useAfterFree }, p, [], []⟩

def Shared.put (sh : Shared ι) (w : Addr) (x : ι) : Shared ι :=
  { sh with heap := Function.update sh.heap w (some x) }

section
variable {sh : Shared ι} {w : Addr} {x y : ι}

theorem Shared.access_some {p : π} {k : ι → Outcome (Shared ι) π ε} (hx : sh.heap w = some x) :
    sh.access p w k = k x := by
  rw [Shared.access, hx]

theorem Shared.put_self : (sh.put w x).heap w = some x := Function.update_self ..

theorem Shared.put_put : (sh.put w x).put w y = sh.put w y := by
  simp [Shared.put]

end

/-- `free` of the C library. -/
def Shared.release (sh : Shared ι) (w : Addr) : Shared ι :=
  match sh.heap w with
  | some _ => { sh with heap := Function.update sh.heap w none }
  | none => { sh with halted := some .doubleFree }

/-- What the program, the scheduler and the C library decide. -/
inductive Choice (ι : Type) where
  /-- Calls of `witem_alloc` and `witem_free`. -/
  | alloc (f a : Option Nat)
  | free (w : Addr)
  /-- Uses of an item that the program has. -/
  | store (w : Addr) (s : Store)
  | load (w : Addr)
  | create
  | exit
  | go
  /-- The result of `malloc`: a block with what happens to be in it. -/
  | block (b : Option (Addr × ι))
  /-- The result of `pthread_setspecific`. -/
  | code (n : Nat)

inductive Event where
  /-- A call of `witem_alloc`, and its return with the contents of the item. -/
  | called (t : Tid) (f a : Option Nat)
  | allocated (t : Tid) (f a : Option Nat) (w : Addr) (x : Work)
  /-- A call of `witem_free`, and its return. -/
  | freeing (t : Tid) (w : Addr)
  | freed (t : Tid) (w : Addr)
  /-- A block is passed to `free`. -/
  | released (t : Tid) (w : Addr)
  | stored (t : Tid) (w : Addr) (s : Store)
  | loaded (t : Tid) (w : Addr) (x : Work)
  | created (t : Tid)
  | exited (t : Tid)
  deriving DecidableEq, Repr

/-- The program does not see when a block goes back to the heap. -/
def Event.visible : Event → Option Event
  | .released _ _ => none
  | e => some e

/-- A thread with WITEM_CACHE_TYPE 1. -/
inductive PlainPc where
  | app
  | malloc (f a : Option Nat)
  | store (w : Addr) (ss : List Store) (f a : Option Nat)
  | free (w : Addr)
  | freed (w : Addr)
  deriving DecidableEq, Repr

abbrev PlainOut := Outcome (Shared Work) PlainPc Event

def plainNext (sh : Shared Work) (t : Tid) : PlainPc → Choice Work → Option PlainOut
  | .app, .alloc f a => some ⟨sh, .malloc f a, [], [.called t f a]⟩
  | .app, .free w =>
    if w ∈ sh.live then
      some ⟨{ sh with live := sh.live.erase w }, .free w, [], [.freeing t w]⟩
    else none
  | .app, .store w s =>
    if w ∈ sh.live then
      some (sh.access .app w fun x => ⟨sh.put w (s.run x), .app, [], [.stored t w s]⟩)
    else none
  | .app, .load w =>
    if w ∈ sh.live then some (sh.access .app w fun x => ⟨sh, .app, [], [.loaded t w x]⟩) else none
  | .app, .create => some ⟨sh, .app, [.app], [.created t]⟩
  | .app, .exit => some ⟨sh, .app, [], [.exited t]⟩
  /- witem_alloc -/
  | .malloc f a, .block none => some ⟨sh, .malloc f a, [], []⟩
  | .malloc f a, .block (some (w, x)) =>
    if sh.heap w = none then
      some ⟨sh.put w x, .store w (initStores ++ callStores f a) f a, [], []⟩
    else none
  | .store w (s :: ss) f a, .go =>
    some (sh.access (.store w (s :: ss) f a) w fun x =>
      ⟨sh.put w (s.run x), .store w ss f a, [], []⟩)
  | .store w [] f a, .go =>
    some (sh.access (.store w [] f a) w fun x =>
      ⟨{ sh with live := w :: sh.live }, .app, [], [.allocated t f a w x]⟩)
  /- witem_free -/
  | .free w, .go => some ⟨sh.release w, .freed w, [], [.released t w]⟩
  | .freed w, .go => some ⟨sh, .app, [], [.freed t w]⟩
  | _, _ => none

/-- The program over the allocator of type 1. -/
def plain : Machine (Shared Work) PlainPc (Choice Work) Event := fun sh t p ch =>
  if sh.halted = none then plainNext sh t p ch else none

/-- What follows the last store to an item. -/
inductive After where
  | alloc (f a : Option Nat)
  | free
  deriving DecidableEq, Repr

/-- A thread with WITEM_CACHE_TYPE 3: `recycle` has the first item of its list in hand, `store` has
the stores that are left, and `cleanup` and `release` are the loop of `witem_cache_cleanup`. -/
inductive Pc where
  | app
  | recycle (f a : Option Nat) (w : Addr)
  | malloc (f a : Option Nat)
  | store (w : Addr) (ss : List ItemStore) (k : After)
  | cleanup (nextWi : Option Addr)
  | release (wi : Addr) (nextWi : Option Addr)
  deriving DecidableEq, Repr

/-- `key` is the thread's value of `witem_cache_key`. -/
structure Thread where
  key : Option Addr
  pc : Pc
  deriving DecidableEq, Repr

def newThread : Thread := ⟨none, .app⟩

abbrev Out := Outcome (Shared Item) Thread Event

/-- Ending a thread takes the value of the key away before the destructor gets it. The destructors
of other keys are application code that runs after it. To store a value for a key that has none may
fail for want of memory; to replace one does not fail. -/
def cachedNext (sh : Shared Item) (t : Tid) (p : Thread) : Pc → Choice Item → Option Out
  | .app, .alloc f a =>
    match p.key with
    | some w => some ⟨sh, { p with pc := .recycle f a w }, [], [.called t f a]⟩
    | none => some ⟨sh, { p with pc := .malloc f a }, [], [.called t f a]⟩
  | .app, .free w =>
    if w ∈ sh.live then
      some ⟨{ sh with live := sh.live.erase w }, { p with pc := .store w (freeStores p.key) .free },
        [], [.freeing t w]⟩
    else none
  | .app, .store w s =>
    if w ∈ sh.live then
      some (sh.access p w fun x => ⟨sh.put w ((ItemStore.work s).run x), p, [], [.stored t w s]⟩)
    else none
  | .app, .load w =>
    if w ∈ sh.live then some (sh.access p w fun x => ⟨sh, p, [], [.loaded t w x.toWork]⟩) else none
  | .app, .create => some ⟨sh, p, [newThread], [.created t]⟩
  | .app, .exit =>
    match p.key with
    | some w => some ⟨sh, ⟨none, .cleanup (some w)⟩, [], [.exited t]⟩
    | none => some ⟨sh, p, [], [.exited t]⟩
  /- witem_alloc, witem_alloc_from_heap -/
  | .recycle f a w, .go =>
    some (sh.access p w fun x =>
      ⟨sh, ⟨x.wiNext, .store w ((callStores f a).map .work) (.alloc f a)⟩, [], []⟩)
  | .malloc _ _, .block none => some ⟨sh, p, [], []⟩
  | .malloc f a, .block (some (w, x)) =>
    if sh.heap w = none then
      some ⟨sh.put w x,
        { p with pc := .store w ((initStores ++ callStores f a).map .work) (.alloc f a) }, [], []⟩
    else none
  | .store w (s :: ss) k, .go =>
    some (sh.access p w fun x => ⟨sh.put w (s.run x), { p with pc := .store w ss k }, [], []⟩)
  | .store w [] (.alloc f a), .go =>
    some (sh.access p w fun x =>
      ⟨{ sh with live := w :: sh.live }, { p with pc := .app }, [], [.allocated t f a w x.toWork]⟩)
  /- the end of witem_free -/
  | .store w [] .free, .code n =>
    if n = 0 then some ⟨sh, ⟨some w, .app⟩, [], [.freed t w]⟩
    else if p.key = none then some ⟨sh, ⟨none, .app⟩, [], [.freed t w]⟩
    else none
  /- witem_cache_cleanup -/
  | .cleanup none, .go => some ⟨sh, { p with pc := .app }, [], []⟩
  | .cleanup (some w), .go =>
    some (sh.access p w fun x => ⟨sh, { p with pc := .release w x.wiNext }, [], []⟩)
  | .release w next, .go =>
    some ⟨sh.release w, { p with pc := .cleanup next }, [], [.released t w]⟩
  | _, _ => none

/-- The program over the allocator of type 3. -/
def cached : Machine (Shared Item) Thread (Choice Item) Event := fun sh t p ch =>
  if sh.halted = none then cachedNext sh t p p.pc ch else none

/-- A process after `witem_cache_init`, with `n` threads that have not used the allocator. -/
def initial (start : π) (n : Nat) : Config (Shared ι) π :=
  ⟨⟨none, fun _ => none, []⟩, List.replicate n start⟩

def steps (t : Tid) (n : Nat) : List (Tid × Choice Item) := List.replicate n (t, .go)

/-- A thread calls `witem_free` and returns from it. -/
def freeItem (t : Tid) (w : Addr) : List (Tid × Choice Item) :=
  (t, .free w) :: steps t 6 ++ [(t, .code 0)]

end PthreadWorkqueue.Cache

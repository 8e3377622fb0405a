import Aiopquic.Lib.Interleave

/-!
# The two threads

Everything the repository shares between threads is shared by two of them: the picoquic worker
(`packet_loop` and the callbacks it makes) and the asyncio thread (every Python and Cython entry
point). `duo` is the rely–guarantee outline of such a pair, where each thread relies on the moves of
the other.
-/

namespace Aiopquic

open Interleave

/-- The picoquic worker and the asyncio thread. -/
inductive Thread
  | worker
  | asyncio
  deriving DecidableEq, Repr

variable {σ : Type} {menu : Thread → σ → Prog σ Unit → Prop}

/-- The outline of the two threads: `worker` and `asyncio` are what a step of each may do, both
preorders, and `workerIdle` and `asyncioIdle` what each knows outside its operations. -/
def duo (inv : σ → Prop) (worker asyncio : σ → σ → Prop) (workerIdle asyncioIdle : σ → Prop)
    (worker_refl : ∀ s, worker s s) (worker_trans : ∀ {s t u}, worker s t → worker t u → worker s u)
    (asyncio_refl : ∀ s, asyncio s s)
    (asyncio_trans : ∀ {s t u}, asyncio s t → asyncio t u → asyncio s u)
    (worker_stable : ∀ {s t}, workerIdle s → asyncio s t → inv t → workerIdle t)
    (asyncio_stable : ∀ {s t}, asyncioIdle s → worker s t → inv t → asyncioIdle t) :
    Outline menu where
  inv := inv
  rely
    | .worker => asyncio
    | .asyncio => worker
  guar
    | .worker => worker
    | .asyncio => asyncio
  idle
    | .worker => workerIdle
    | .asyncio => asyncioIdle
  rely_refl
    | .worker => asyncio_refl
    | .asyncio => worker_refl
  rely_trans
    | .worker => asyncio_trans
    | .asyncio => worker_trans
  guar_refl
    | .worker => worker_refl
    | .asyncio => asyncio_refl
  guar_rely {i j _ _} hne _ h := by
    cases i <;> cases j <;> first | exact h | exact absurd rfl hne
  idle_stable {i _ _} hidle hr ht := by
    cases i with
    | worker => exact worker_stable hidle hr ht
    | asyncio => exact asyncio_stable hidle hr ht

end Aiopquic

import Mathlib

/-!
# A store behind a write cache

Writes are issued into a cache and become durable when the cache is flushed. Reading sees
all of them; when the power is lost, any of those not yet flushed may be missing.
-/

namespace Lchfs.Library

variable {ι ω : Type}

/-- The durable image and the writes not flushed yet, in order, with the writes ever issued. -/
structure WriteCache (ι ω : Type) where
  durable : ι
  pending : List ω
  issued : List ω

namespace WriteCache

/-- Nothing issued yet. -/
def fresh (image : ι) : WriteCache ι ω := ⟨image, [], []⟩

/-- Issues a write. -/
def write (w : ω) (c : WriteCache ι ω) : WriteCache ι ω :=
  { c with pending := c.pending ++ [w], issued := c.issued ++ [w] }

/-- The writes of a list at which a mask is set. -/
def select : List Bool → List ω → List ω
  | true :: keep, w :: writes => w :: select keep writes
  | false :: keep, _ :: writes => select keep writes
  | _, _ => []

variable (apply : ι → ω → ι)

/-- The image that reads see. -/
def visible (c : WriteCache ι ω) : ι := c.pending.foldl apply c.durable

/-- Makes everything durable. -/
def flush (c : WriteCache ι ω) : WriteCache ι ω :=
  { c with durable := c.visible apply, pending := [] }

/-- The power is lost: of the pending writes those of the mask are there afterwards. -/
def crash (keep : List Bool) (c : WriteCache ι ω) : WriteCache ι ω :=
  { c with durable := (select keep c.pending).foldl apply c.durable, pending := [] }

end WriteCache

end Lchfs.Library

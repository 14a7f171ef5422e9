/-
# PhraseChart.Sampling.Choice -- choosing evenly with 32-bit words

A choice among `n` alternatives reads words until one is accepted.  The product
of a word with `n` has 64 bits: the upper half is the index that is chosen, and
the word is accepted when the lower half is at most `zone n`, so that each index
has equally many accepted words.  A word is read even when there is one
alternative only.

A source of words need never yield an accepted word, so a choice gives up after
`patience` words.
-/

namespace PhraseChart.Sampling

set_option autoImplicit false

/-- The greatest lower half that is accepted: `n` shifted up to 32 bits, less one. -/
def zone (n : Nat) : Nat := (n <<< (31 - n.log2)) - 1

def accepts (n : Nat) (word : UInt32) : Bool := word.toNat * n % UInt32.size ≤ zone n

theorem upperHalf_lt {n : Nat} (positive : 0 < n) (word : UInt32) :
    word.toNat * n / UInt32.size < n :=
  Nat.div_lt_of_lt_mul (Nat.mul_lt_mul_of_pos_right word.toNat_lt_size positive)

/-- The index that an accepted word stands for. -/
def indexOf {n : Nat} (positive : 0 < n) (word : UInt32) : Fin n :=
  ⟨word.toNat * n / UInt32.size, upperHalf_lt positive word⟩

/-- A source of 32-bit words with the state `σ`. -/
structure Source (σ : Type) where
  next : σ → UInt32 × σ
  /-- The number of words that one choice reads before it gives up. -/
  patience : Nat

namespace Source

variable {σ : Type}

/-- Reads at most `limit` words, up to the first that is accepted. -/
def draw (next : σ → UInt32 × σ) {n : Nat} (positive : 0 < n) : Nat → σ → Option (Fin n) × σ
  | 0, state => (none, state)
  | limit + 1, state =>
      let (word, state) := next state
      if accepts n word then (some (indexOf positive word), state)
      else draw next positive limit state

/-- Chooses an index below `n` by words of 32 bits.  This is the rule for fewer than `2 ^ 32`
alternatives; from there on the words that are drawn have 64 bits. -/
def choose (source : Source σ) {n : Nat} (positive : 0 < n) (state : σ) : Option (Fin n) × σ :=
  draw source.next positive source.patience state

end Source

/-! ### Given words, then a linear congruence -/

/-- Words that were given in advance, then the states of a linear congruential
generator after its current one.  `used` counts the words that were read. -/
structure WordStream where
  given : List UInt32
  state : UInt32
  used : Nat

namespace WordStream

def ofSeed (given : List UInt32) (seed : UInt32) : WordStream := { given, state := seed, used := 0 }

def next (s : WordStream) : UInt32 × WordStream :=
  match s.given with
  | word :: rest => (word, { s with given := rest, used := s.used + 1 })
  | [] =>
      let word := s.state * 1664525 + 1013904223
      (word, { s with state := word, used := s.used + 1 })

/-- The patience is for the given words and as many more as there are: one round of the
generator has all of them, and every choice accepts the word 0. -/
def source (s : WordStream) : Source WordStream :=
  { next, patience := s.given.length + UInt32.size }

end WordStream

end PhraseChart.Sampling

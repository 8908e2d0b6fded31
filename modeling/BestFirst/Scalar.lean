namespace BestFirst

class Scalar (α : Type) where
  isFinite : α → Bool
  sqrt     : α → α

instance : Scalar Float where
  isFinite := Float.isFinite
  sqrt     := Float.sqrt

end BestFirst

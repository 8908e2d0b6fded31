namespace BestFirst

-- Any integer may be asked about. Which of them stand for a node or an edge is for the graph to say.
abbrev NodeIndex := Int
abbrev EdgeIndex := Int

def noEdge : EdgeIndex := -1

def asEdge (e : EdgeIndex) : Option EdgeIndex :=
  if e = noEdge then none else some e

end BestFirst
